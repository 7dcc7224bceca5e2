import Mathlib

/-!
# Comparisons with a sign

A comparison gives a number that is negative, zero or positive.  It orders the
values of a set if it is zero from a value to itself, changes its sign with the
sides, and is transitive.  Orders are made of a rank that is compared first, and
lists are compared element by element.
-/

namespace Mnn.Foundation.Comparisons

open List

variable {α β : Type*}

/-- The comparison is a total preorder on a set. -/
structure OrdersOn (cmp : α → α → Int) (s : Set α) : Prop where
  refl : ∀ a ∈ s, cmp a a = 0
  antisymm : ∀ a ∈ s, ∀ b ∈ s, cmp a b < 0 ↔ 0 < cmp b a
  trans : ∀ a ∈ s, ∀ b ∈ s, ∀ c ∈ s, cmp a b ≤ 0 → cmp b c ≤ 0 → cmp a c ≤ 0

variable {a b c : α}

namespace OrdersOn

variable {cmp : α → α → Int} {s t : Set α}

/-- The values are images, and are compared as what they are images of. -/
theorem of_image {cmp' : β → β → Int} {t : Set β} (orders : OrdersOn cmp' t)
    (f : β → α) (same : ∀ x y, cmp (f x) (f y) = cmp' x y)
    (covered : ∀ a ∈ s, ∃ x ∈ t, f x = a) : OrdersOn cmp s where
  refl a isIn := by
    obtain ⟨x, isIn_x, rfl⟩ := covered a isIn
    rw [same]
    exact orders.refl x isIn_x
  antisymm a isIn b isIn' := by
    obtain ⟨x, isIn_x, rfl⟩ := covered a isIn
    obtain ⟨y, isIn_y, rfl⟩ := covered b isIn'
    rw [same, same]
    exact orders.antisymm x isIn_x y isIn_y
  trans a isIn b isIn' c isIn'' := by
    obtain ⟨x, isIn_x, rfl⟩ := covered a isIn
    obtain ⟨y, isIn_y, rfl⟩ := covered b isIn'
    obtain ⟨z, isIn_z, rfl⟩ := covered c isIn''
    rw [same, same, same]
    exact orders.trans x isIn_x y isIn_y z isIn_z

section

variable (orders : OrdersOn cmp s) (isIn : a ∈ s) (isIn' : b ∈ s)

include orders isIn isIn'

theorem zero_swap :
    cmp a b = 0 ↔ cmp b a = 0 := by
  have forth := orders.antisymm a isIn b isIn'
  have back := orders.antisymm b isIn' a isIn
  omega

theorem lt_of_lt_of_le (isIn'' : c ∈ s) (less : cmp a b < 0) (le : cmp b c ≤ 0) :
    cmp a c < 0 := by
  by_contra notLess
  have back : cmp c a ≤ 0 := by
    have swap := orders.antisymm a isIn c isIn''
    have swap' := orders.antisymm c isIn'' a isIn
    omega
  have round := orders.trans b isIn' c isIn'' a isIn le back
  have swap := orders.antisymm a isIn b isIn'
  omega

theorem lt_of_le_of_lt (isIn'' : c ∈ s) (le : cmp a b ≤ 0) (less : cmp b c < 0) :
    cmp a c < 0 := by
  by_contra notLess
  have back : cmp c a ≤ 0 := by
    have swap := orders.antisymm a isIn c isIn''
    have swap' := orders.antisymm c isIn'' a isIn
    omega
  have round := orders.trans c isIn'' a isIn b isIn' back le
  have swap := orders.antisymm b isIn' c isIn''
  omega

end

theorem congr {cmp' : α → α → Int} (orders : OrdersOn cmp s)
    (same : ∀ a ∈ s, ∀ b ∈ s, cmp' a b = cmp a b) : OrdersOn cmp' s where
  refl a isIn := by
    rw [same a isIn a isIn]
    exact orders.refl a isIn
  antisymm a isIn b isIn' := by
    rw [same a isIn b isIn', same b isIn' a isIn]
    exact orders.antisymm a isIn b isIn'
  trans a isIn b isIn' c isIn'' := by
    rw [same a isIn b isIn', same b isIn' c isIn'', same a isIn c isIn'']
    exact orders.trans a isIn b isIn' c isIn''

theorem of_rank (rank : α → Nat) (differs : ∀ a ∈ s, ∀ b ∈ s, rank a ≠ rank b →
      cmp a b = if rank a < rank b then -1 else 1)
    (inRank : ∀ r, OrdersOn cmp {a ∈ s | rank a = r}) : OrdersOn cmp s where
  refl a isIn := (inRank (rank a)).refl a ⟨isIn, rfl⟩
  antisymm a isIn b isIn' := by
    by_cases same : rank a = rank b
    · exact (inRank (rank a)).antisymm a ⟨isIn, rfl⟩ b ⟨isIn', same.symm⟩
    · rw [differs a isIn b isIn' same, differs b isIn' a isIn (Ne.symm same)]
      split_ifs <;> omega
  trans a isIn b isIn' c isIn'' le le' := by
    have ordered {x y : α} (isIn : x ∈ s) (isIn' : y ∈ s) (le : cmp x y ≤ 0) : rank x ≤ rank y := by
      by_contra more
      rw [differs x isIn y isIn' (by omega), if_neg (by omega)] at le
      omega
    have first := ordered isIn isIn' le
    have second := ordered isIn' isIn'' le'
    by_cases same : rank a = rank c
    · exact (inRank (rank a)).trans a ⟨isIn, rfl⟩ b ⟨isIn', by omega⟩ c
        ⟨isIn'', same.symm⟩ le le'
    · rw [differs a isIn c isIn'' same, if_pos (by omega)]
      omega

theorem of_zero (zero : ∀ a ∈ s, ∀ b ∈ s, cmp a b = 0) : OrdersOn cmp s where
  refl a isIn := zero a isIn a isIn
  antisymm a isIn b isIn' := by
    rw [zero a isIn b isIn', zero b isIn' a isIn]
  trans a isIn _ _ c isIn'' _ _ := (zero a isIn c isIn'').le

end OrdersOn

/-! ## Linear orders -/

section Linear

variable [LinearOrder α]

/-- `a < b ? -1 : (a > b ? 1 : 0)` -/
def threeWay (a b : α) : Int :=
  if a < b then -1 else if b < a then 1 else 0

theorem threeWay_le_zero : threeWay a b ≤ 0 ↔ a ≤ b := by
  unfold threeWay
  split_ifs with less more
  · simp [less.le]
  · simp [more]
  · simp [not_lt.mp more]

theorem threeWay_eq_zero : threeWay a b = 0 ↔ a = b := by
  unfold threeWay
  split_ifs with less more
  · simp [less.ne]
  · simp [more.ne']
  · simp [le_antisymm (not_lt.mp more) (not_lt.mp less)]

theorem threeWay_neg : threeWay a b < 0 ↔ a < b := by
  unfold threeWay
  split_ifs with less more <;> simp [less]

theorem threeWay_pos : 0 < threeWay a b ↔ b < a := by
  unfold threeWay
  split_ifs with less more
  · simp [less.le]
  · simp [more]
  · simp [not_lt.mp more]

theorem ordersOn_threeWay (f : β → α) (s : Set β) :
    OrdersOn (fun x y => threeWay (f x) (f y)) s where
  refl _ _ := threeWay_eq_zero.mpr rfl
  antisymm _ _ _ _ := threeWay_neg.trans threeWay_pos.symm
  trans _ _ _ _ _ _ le le' := by
    rw [threeWay_le_zero] at le le' ⊢
    exact le.trans le'

end Linear

/-! ## Lists -/

/-- The first elements that are told apart decide. -/
def elementwise (cmp : α → α → Int) : List α → List α → Int
  | a :: as, b :: bs => if cmp a b ≠ 0 then cmp a b else elementwise cmp as bs
  | _, _ => 0

section Lists

variable {cmp : α → α → Int} {s : Set α}

theorem elementwise_cons_cons (a b : α) (as bs : List α) :
    elementwise cmp (a :: as) (b :: bs) =
      if cmp a b ≠ 0 then cmp a b else elementwise cmp as bs :=
  rfl

theorem elementwise_self (orders : OrdersOn cmp s) :
    ∀ {as : List α}, (∀ a ∈ as, a ∈ s) → elementwise cmp as as = 0
  | [], _ => rfl
  | a :: as, isIn => by
      rw [elementwise_cons_cons, if_neg (not_not.mpr (orders.refl a (isIn a (by simp))))]
      exact elementwise_self orders fun a' isMem => isIn a' (mem_cons_of_mem a isMem)

theorem elementwise_antisymm (orders : OrdersOn cmp s) :
    ∀ {as bs : List α}, (∀ a ∈ as, a ∈ s) → (∀ b ∈ bs, b ∈ s) →
      (elementwise cmp as bs < 0 ↔ 0 < elementwise cmp bs as)
  | [], [], _, _ => by simp [elementwise]
  | [], _ :: _, _, _ => by simp [elementwise]
  | _ :: _, [], _, _ => by simp [elementwise]
  | a :: as, b :: bs, isIn, isIn' => by
      have isIn_a : a ∈ s := isIn a (by simp)
      have isIn_b : b ∈ s := isIn' b (by simp)
      have swap := orders.zero_swap isIn_a isIn_b
      have rest := elementwise_antisymm orders (fun a' isMem => isIn a' (mem_cons_of_mem a isMem))
        (fun b' isMem => isIn' b' (mem_cons_of_mem b isMem))
      rw [elementwise_cons_cons, elementwise_cons_cons]
      by_cases zero : cmp a b = 0
      · rw [if_neg (not_not.mpr zero), if_neg (not_not.mpr (swap.mp zero))]
        exact rest
      · rw [if_pos zero, if_pos (mt swap.mpr zero)]
        exact orders.antisymm a isIn_a b isIn_b

theorem elementwise_trans (orders : OrdersOn cmp s) :
    ∀ {as bs cs : List α}, as.length = bs.length → bs.length = cs.length →
      (∀ a ∈ as, a ∈ s) → (∀ b ∈ bs, b ∈ s) → (∀ c ∈ cs, c ∈ s) →
      elementwise cmp as bs ≤ 0 → elementwise cmp bs cs ≤ 0 → elementwise cmp as cs ≤ 0
  | [], _, _, _, _, _, _, _, _, _ => by simp [elementwise]
  | a :: as, b :: bs, c :: cs, long, long', isIn, isIn', isIn'', le, le' => by
      have isIn_a : a ∈ s := isIn a (by simp)
      have isIn_b : b ∈ s := isIn' b (by simp)
      have isIn_c : c ∈ s := isIn'' c (by simp)
      rw [elementwise_cons_cons] at le le' ⊢
      by_cases zero : cmp a b = 0 <;> by_cases zero' : cmp b c = 0
      · rw [if_neg (not_not.mpr zero)] at le
        rw [if_neg (not_not.mpr zero')] at le'
        have first := orders.trans a isIn_a b isIn_b c isIn_c zero.le zero'.le
        split_ifs with apart
        · exact first
        · exact elementwise_trans orders (by simpa using long) (by simpa using long')
            (fun a' isMem => isIn a' (mem_cons_of_mem a isMem))
            (fun b' isMem => isIn' b' (mem_cons_of_mem b isMem))
            (fun c' isMem => isIn'' c' (mem_cons_of_mem c isMem)) le le'
      · rw [if_pos zero'] at le'
        have less := orders.lt_of_le_of_lt isIn_a isIn_b isIn_c zero.le (lt_of_le_of_ne le' zero')
        rw [if_pos less.ne]
        exact less.le
      · rw [if_pos zero] at le
        have less := orders.lt_of_lt_of_le isIn_a isIn_b isIn_c (lt_of_le_of_ne le zero) zero'.le
        rw [if_pos less.ne]
        exact less.le
      · rw [if_pos zero] at le
        rw [if_pos zero'] at le'
        have less := orders.lt_of_lt_of_le isIn_a isIn_b isIn_c (lt_of_le_of_ne le zero) le'
        rw [if_pos less.ne]
        exact less.le

theorem ordersOn_elementwise (orders : OrdersOn cmp s) (size : Nat) :
    OrdersOn (elementwise cmp) {as | (∀ a ∈ as, a ∈ s) ∧ as.length = size} where
  refl _ isIn := elementwise_self orders isIn.1
  antisymm _ isIn _ isIn' := elementwise_antisymm orders isIn.1 isIn'.1
  trans _ isIn _ isIn' _ isIn'' :=
    elementwise_trans orders (isIn.2.trans isIn'.2.symm) (isIn'.2.trans isIn''.2.symm)
      isIn.1 isIn'.1 isIn''.1

/-- The shorter list is the smaller one. -/
def lengthFirst (cmp : α → α → Int) (as bs : List α) : Int :=
  if as.length ≠ bs.length then
    if as.length < bs.length then -1 else 1
  else
    elementwise cmp as bs

theorem ordersOn_lengthFirst (orders : OrdersOn cmp s) :
    OrdersOn (lengthFirst cmp) {as | ∀ a ∈ as, a ∈ s} := by
  refine .of_rank List.length (fun as _ bs _ differ => ?_) fun size => ?_
  · rw [lengthFirst, if_pos differ]
  · refine (ordersOn_elementwise orders size).congr fun as isIn bs isIn' => ?_
    rw [lengthFirst, if_neg (not_not.mpr (isIn.2.trans isIn'.2.symm))]

theorem elementwise_eq_zero {same : α → α → Prop} :
    ∀ {as bs : List α}, as.length = bs.length → (∀ a ∈ as, ∀ b ∈ bs, cmp a b = 0 ↔ same a b) →
      (elementwise cmp as bs = 0 ↔ List.Forall₂ same as bs)
  | [], [], _, _ => by simp [elementwise]
  | a :: as, b :: bs, long, agree => by
      have rest := elementwise_eq_zero (by simpa using long)
        fun a' isMem b' isMem' =>
          agree a' (mem_cons_of_mem a isMem) b' (mem_cons_of_mem b isMem')
      rw [elementwise_cons_cons, forall₂_cons, ← rest, ← agree a (by simp) b (by simp)]
      split_ifs with apart
      · simp [apart]
      · simp [not_not.mp apart]

/-- Lists are not told apart if they have one length and no elements are. -/
theorem lengthFirst_eq_zero {same : α → α → Prop} {as bs : List α}
    (agree : ∀ a ∈ as, ∀ b ∈ bs, cmp a b = 0 ↔ same a b) :
    lengthFirst cmp as bs = 0 ↔ List.Forall₂ same as bs := by
  unfold lengthFirst
  split_ifs with differ shorter
  · exact iff_of_false (by decide) fun all => differ all.length_eq
  · exact iff_of_false (by decide) fun all => differ all.length_eq
  · exact elementwise_eq_zero (not_not.mp differ) agree

end Lists

end Mnn.Foundation.Comparisons
