import Mnn.Llm.Ujson

/-!
# What the comparison of JSON values tells apart

Two values are the same if they have the same type and the same numbers, strings,
elements and members.  The comparison orders a set of values, and tells apart what
is not the same, if and only if the set has none of five kinds of neighbours: two
integers that are one in 64 bits, an integer that is rounded to a double of the
set, a double between two integers of which the larger is taken for a negative
one, two strings that differ behind a NUL, and two objects of one size.
-/

namespace Mnn.Llm.Ujson

open Mnn.Foundation.BinaryRounding
open Mnn.Foundation.Comparisons
open List

/-! ## Sameness -/

def Number.value : Number → ℚ
  | integer n _ => n
  | double x _ => x

/-- Structural equality; the members of an object have no order. -/
inductive Json.Same : Json → Json → Prop
  | null : Same null null
  | bool (b : Bool) : Same (bool b) (bool b)
  | number {m n : Number} (same : m.value = n.value) : Same (number m) (number n)
  | string (s : List Byte) : Same (string s) (string s)
  | array {xs ys : List Json} (elements : List.Forall₂ Same xs ys) : Same (array xs) (array ys)
  | object {xs xs' ys : List (List Byte × Json)} (reordered : xs.Perm xs')
      (names : xs'.map Prod.fst = ys.map Prod.fst)
      (values : List.Forall₂ Same (xs'.map Prod.snd) (ys.map Prod.snd)) :
      Same (object xs) (object ys)

/-- On a set, the comparison is a total order that goes with sameness. -/
structure Ordered (S : Set Json) : Prop where
  refl : ∀ a ∈ S, a.compare a = 0
  antisymm : ∀ a ∈ S, ∀ b ∈ S, a.compare b < 0 ↔ 0 < b.compare a
  trans : ∀ a ∈ S, ∀ b ∈ S, ∀ c ∈ S, a.compare b ≤ 0 → b.compare c ≤ 0 → a.compare c ≤ 0
  same : ∀ a ∈ S, ∀ b ∈ S, a.compare b = 0 ↔ a.Same b

/-- Numbers none of which are neighbours that the comparison mistakes. -/
structure Clear (N : Set Number) : Prop where
  wrapped : ∀ m inside n inside', .integer m inside ∈ N → .integer n inside' ∈ N → m ≠ n - 2 ^ 64
  rounded : ∀ n inside x isDouble, .integer n inside ∈ N → .double x isDouble ∈ N →
    toDouble n = x → (n : ℚ) = x
  between : ∀ m inside n inside' x isDouble, .integer m inside ∈ N →
    .integer n inside' ∈ N → .double x isDouble ∈ N →
    n - 2 ^ 64 < m → m ≤ kMaxInt64 → kMaxInt64 < n → ¬((m : ℚ) ≤ x ∧ x ≤ n)

/-- Values none of which are neighbours that the comparison mistakes. -/
structure Unmistakable (S : Set Json) : Prop where
  numbers : Clear {n | .number n ∈ S}
  strings : ∀ s t, .string s ∈ S → .string t ∈ S → c_str s = c_str t → s = t
  objects : ∀ xs ys, .object xs ∈ S → .object ys ∈ S → xs.length = ys.length →
    (Json.object xs).Same (Json.object ys)

/-! ## Numbers -/

section Numbers

theorem IsDouble.isRounded {x : ℚ} (isDouble : IsDouble x) : IsRounded 53 |x| := by
  obtain ⟨m, e, few, -, -, rfl⟩ := isDouble
  refine ⟨m.natAbs, e, ?_, ?_⟩
  · rw [← Int.natCast_natAbs] at few
    exact_mod_cast few.le
  · rw [abs_mul, abs_of_pos (zpow_pos (two_pos (α := ℚ)) e), Nat.cast_natAbs, Int.cast_abs]

section

variable {n : Int} {x : ℚ} (isDouble : IsDouble x)

include isDouble

theorem toDouble_le (le : (n : ℚ) ≤ x) : toDouble n ≤ x :=
  roundSigned_le isDouble.isRounded (by decide) le

theorem le_toDouble (le : x ≤ (n : ℚ)) : x ≤ toDouble n :=
  le_roundSigned isDouble.isRounded (by decide) le

theorem toDouble_eq (same : (n : ℚ) = x) :
    toDouble n = x :=
  le_antisymm (toDouble_le isDouble same.le) (le_toDouble isDouble same.ge)

end

theorem compareNumbers_antisymm (a b : Number) :
    compareNumbers a b < 0 ↔ 0 < compareNumbers b a := by
  cases a <;> cases b <;> exact threeWay_neg.trans threeWay_pos.symm

namespace Clear

variable {N : Set Number} (clear : Clear N)

include clear

/-- Integers with a double between them are in order in 64 bits. -/
theorem toInt64_lt {m n : Int} {x : ℚ} {inside inside' isDouble}
    (isIn : .integer m inside ∈ N) (isIn' : .integer n inside' ∈ N)
    (isIn'' : .double x isDouble ∈ N) (le : (m : ℚ) ≤ x) (le' : x ≤ n) (less : m < n) :
    toInt64 m < toInt64 n := by
  by_contra notLess
  have apart := clear.wrapped m inside n inside' isIn isIn'
  unfold toInt64 at notLess
  have wraps : n - 2 ^ 64 < m ∧ m ≤ kMaxInt64 ∧ kMaxInt64 < n := by
    split_ifs at notLess <;> omega
  exact clear.between m inside n inside' x isDouble isIn isIn' isIn'' wraps.1 wraps.2.1
    wraps.2.2 ⟨le, le'⟩

section

variable {n : Int} {x : ℚ} {inside isDouble} (isIn : .integer n inside ∈ N)
  (isIn' : .double x isDouble ∈ N)

include isIn isIn'

theorem toDouble_le_iff :
    toDouble n ≤ x ↔ (n : ℚ) ≤ x := by
  refine ⟨fun le => ?_, toDouble_le isDouble⟩
  by_contra notLe
  have same := le_antisymm le (le_toDouble isDouble (not_le.mp notLe).le)
  exact notLe (clear.rounded n inside x isDouble isIn isIn' same).le

theorem le_toDouble_iff :
    x ≤ toDouble n ↔ x ≤ (n : ℚ) := by
  refine ⟨fun le => ?_, le_toDouble isDouble⟩
  by_contra notLe
  have same := le_antisymm (toDouble_le isDouble (not_le.mp notLe).le) le
  exact notLe (clear.rounded n inside x isDouble isIn isIn' same).ge

end

theorem compareNumbers_trans {a b c : Number} (isIn : a ∈ N) (isIn' : b ∈ N)
    (isIn'' : c ∈ N) (le : compareNumbers a b ≤ 0) (le' : compareNumbers b c ≤ 0) :
    compareNumbers a c ≤ 0 := by
  cases a with
  | integer l inside =>
    cases b with
    | integer m inside' =>
      cases c with
      | integer n inside'' =>
        rw [compareNumbers, threeWay_le_zero] at le le' ⊢
        exact le.trans le'
      | double x isDouble =>
        simp only [compareNumbers, threeWay_le_zero, Number.asDouble,
          clear.toDouble_le_iff isIn isIn'', clear.toDouble_le_iff isIn' isIn'']
          at le le' ⊢
        by_contra notLe
        have less : m < l := by exact_mod_cast le'.trans_lt (not_le.mp notLe)
        exact (clear.toInt64_lt isIn' isIn isIn'' le' (not_le.mp notLe).le less).not_ge le
    | double x isDouble =>
      cases c with
      | integer n inside'' =>
        simp only [compareNumbers, threeWay_le_zero, Number.asDouble,
          clear.toDouble_le_iff isIn isIn', clear.le_toDouble_iff isIn'' isIn']
          at le le' ⊢
        have ordered : l ≤ n := by exact_mod_cast le.trans le'
        rcases ordered.eq_or_lt with rfl | less
        · exact le_rfl
        · exact (clear.toInt64_lt isIn isIn'' isIn' le le' less).le
      | double y isDouble' =>
        simp only [compareNumbers, threeWay_le_zero] at le le' ⊢
        exact le.trans le'
  | double x isDouble =>
    cases b with
    | integer m inside' =>
      cases c with
      | integer n inside'' =>
        simp only [compareNumbers, threeWay_le_zero, Number.asDouble,
          clear.le_toDouble_iff isIn' isIn, clear.le_toDouble_iff isIn'' isIn]
          at le le' ⊢
        by_contra notLe
        have less : n < m := by exact_mod_cast (not_le.mp notLe).trans_le le
        exact (clear.toInt64_lt isIn'' isIn' isIn (not_le.mp notLe).le le less).not_ge le'
      | double y isDouble' =>
        simp only [compareNumbers, threeWay_le_zero] at le le' ⊢
        exact le.trans le'
    | double y isDouble' =>
      cases c with
      | integer n inside'' =>
        simp only [compareNumbers, threeWay_le_zero] at le le' ⊢
        exact le.trans le'
      | double z isDouble'' =>
        simp only [compareNumbers, threeWay_le_zero] at le le' ⊢
        exact le.trans le'

theorem compareNumbers_eq_zero {a b : Number} (isIn : a ∈ N) (isIn' : b ∈ N) :
    compareNumbers a b = 0 ↔ a.value = b.value := by
  cases a with
  | integer m inside =>
    cases b with
    | integer n inside' =>
      have apart := clear.wrapped m inside n inside' isIn isIn'
      have apart' := clear.wrapped n inside' m inside isIn' isIn
      simp only [compareNumbers, threeWay_eq_zero, Number.value, Int.cast_inj]
      unfold toInt64
      split_ifs <;> omega
    | double x isDouble =>
      simp only [compareNumbers, threeWay_eq_zero, Number.value, Number.asDouble]
      exact ⟨clear.rounded m inside x isDouble isIn isIn', toDouble_eq isDouble⟩
  | double x isDouble =>
    cases b with
    | integer n inside' =>
      simp only [compareNumbers, threeWay_eq_zero, Number.value, Number.asDouble]
      rw [eq_comm, eq_comm (a := x)]
      exact ⟨clear.rounded n inside' x isDouble isIn' isIn, toDouble_eq isDouble⟩
    | double y isDouble' =>
      simp only [compareNumbers, threeWay_eq_zero, Number.value, Number.asDouble]

theorem ordersOn_compareNumbers : OrdersOn compareNumbers N where
  refl _ isIn := (clear.compareNumbers_eq_zero isIn isIn).mpr rfl
  antisymm a _ b _ := compareNumbers_antisymm a b
  trans _ isIn _ isIn' _ isIn'' := clear.compareNumbers_trans isIn isIn' isIn''

end Clear

end Numbers

/-! ## Strings -/

/-- The codes of a C string. -/
def codes (s : List Byte) : List Nat := (c_str s).map UInt8.toNat

theorem threeWay_cons {A : Type*} [LinearOrder A] (a b : A) (as bs : List A) :
    threeWay (a :: as) (b :: bs) = if a = b then threeWay as bs else threeWay a b := by
  unfold threeWay
  split_ifs with same <;> simp_all [cons_lt_cons_iff]

theorem codes_cons (b : Byte) (s : List Byte) :
    codes (b :: s) = if b = 0 then [] else b.toNat :: codes s := by
  rw [codes, c_str, takeWhile_cons]
  split_ifs with isNul notNul <;> simp_all [codes, c_str]

theorem strcmp_eq (s t : List Byte) : strcmp s t = threeWay (codes s) (codes t) := by
  induction s generalizing t with
  | nil =>
    cases t with
    | nil => exact (threeWay_eq_zero.mpr rfl).symm
    | cons r t =>
      rw [strcmp, codes_cons]
      split_ifs <;> simp [codes, c_str, threeWay]
  | cons l s ih =>
    cases t with
    | nil =>
      rw [strcmp, codes_cons]
      split_ifs <;> simp [codes, c_str, threeWay]
    | cons r t =>
      rw [strcmp, codes_cons, codes_cons, ih]
      by_cases same : l = r
      · subst same
        rw [if_pos rfl]
        split_ifs
        · exact (threeWay_eq_zero.mpr rfl).symm
        · rw [threeWay_cons, if_pos rfl]
      · have apart : l.toNat ≠ r.toNat := mt UInt8.toNat_inj.mp same
        rw [if_neg same]
        by_cases isNul : l = 0 <;> by_cases isNul' : r = 0
        · exact absurd (isNul.trans isNul'.symm) same
        · have positive : 0 < r.toNat :=
            Nat.pos_of_ne_zero fun zero => isNul' (UInt8.toNat_inj.mp zero)
          simp [isNul, isNul', threeWay, positive]
        · have positive : 0 < l.toNat :=
            Nat.pos_of_ne_zero fun zero => isNul (UInt8.toNat_inj.mp zero)
          simp [isNul, isNul', threeWay, positive.ne']
        · rw [if_neg isNul, if_neg isNul', threeWay_cons, if_neg apart]

theorem codes_inj {s t : List Byte} (same : codes s = codes t) : c_str s = c_str t :=
  map_injective_iff.mpr (fun _ _ => UInt8.toNat_inj.mp) same

/-! ## Values -/

theorem Json.compareElements_eq (lhs rhs : List Json) :
    Json.compareElements lhs rhs = elementwise Json.compare lhs rhs := by
  induction lhs generalizing rhs with
  | nil => cases rhs <;> rfl
  | cons l lhs ih =>
    cases rhs with
    | nil => rfl
    | cons r rhs =>
      rw [Json.compareElements, elementwise_cons_cons, ih]

theorem Json.compare_of_type {a b : Json} (differ : a.GetType ≠ b.GetType) :
    a.compare b = if a.GetType < b.GetType then -1 else 1 := by
  unfold Json.compare
  rw [if_pos differ]

theorem Json.compare_array (xs ys : List Json) :
    (array xs).compare (array ys) = lengthFirst Json.compare xs ys := by
  rw [lengthFirst, ← compareElements_eq]
  rfl

theorem Json.compare_object (xs ys : List (List Byte × Json)) :
    (object xs).compare (object ys) = threeWay xs.length ys.length := by
  have counted : (object xs).compare (object ys) =
      if xs.length ≠ ys.length then (if xs.length < ys.length then -1 else 1) else 0 := rfl
  rw [counted, threeWay]
  split_ifs <;> omega

/-- The constructor from the place of the type. -/
inductive Json.Kind : Nat → Json → Prop
  | null : Kind 0 null
  | false : Kind 1 (bool .false)
  | true : Kind 2 (bool .true)
  | object (members : List (List Byte × Json)) : Kind 3 (object members)
  | array (elements : List Json) : Kind 4 (array elements)
  | string (s : List Byte) : Kind 5 (string s)
  | number (n : Number) : Kind 6 (number n)

theorem Json.kind (a : Json) : a.Kind a.GetType := by
  rcases a with _ | (_ | _) | _ | _ | _ | _
  case null => exact .null
  case bool.false => exact .false
  case bool.true => exact .true
  case number n => exact .number n
  case string s => exact .string s
  case array elements => exact .array elements
  case object members => exact .object members

/-- The values of one size or less that a set has. -/
def upTo (S : Set Json) (size : Nat) : Set Json := {a ∈ S | sizeOf a < size}

theorem mem_upTo_of_mem {S : Set Json} (closed : ∀ xs, .array xs ∈ S → ∀ x ∈ xs, x ∈ S)
    {size : Nat} {xs : List Json} (isIn : .array xs ∈ upTo S (size + 1)) :
    ∀ x ∈ xs, x ∈ upTo S size := by
  intro x isMem
  have smaller := sizeOf_lt_of_mem isMem
  have bound := isIn.2
  simp only [Json.array.sizeOf_spec] at bound
  exact ⟨closed xs isIn.1 x isMem, by omega⟩

theorem Unmistakable.ordersOn {S : Set Json} (unmistakable : Unmistakable S)
    (closed : ∀ xs, .array xs ∈ S → ∀ x ∈ xs, x ∈ S) (size : Nat) :
    OrdersOn Json.compare (upTo S size) := by
  induction size with
  | zero => exact .of_zero fun a isIn => absurd isIn.2 (by omega)
  | succ size ih =>
    refine .of_rank Json.GetType (fun a _ b _ differ => Json.compare_of_type differ) fun type => ?_
    by_cases known : type ∈ [3, 4, 5, 6]
    · simp only [mem_cons, not_mem_nil, or_false] at known
      rcases known with rfl | rfl | rfl | rfl
      · refine (ordersOn_threeWay List.length Set.univ).of_image Json.object
          Json.compare_object fun a isIn => ?_
        have kind := a.kind
        rw [isIn.2] at kind
        cases kind with
        | object members => exact ⟨members, Set.mem_univ members, rfl⟩
      · refine (ordersOn_lengthFirst ih).of_image Json.array Json.compare_array fun a isIn => ?_
        have kind := a.kind
        rw [isIn.2] at kind
        cases kind with
        | array elements =>
          exact ⟨elements, mem_upTo_of_mem closed isIn.1, rfl⟩
      · refine (ordersOn_threeWay codes Set.univ).of_image Json.string
          (fun s t => strcmp_eq s t) fun a isIn => ?_
        have kind := a.kind
        rw [isIn.2] at kind
        cases kind with
        | string s => exact ⟨s, Set.mem_univ s, rfl⟩
      · refine unmistakable.numbers.ordersOn_compareNumbers.of_image Json.number
          (fun m n => rfl) fun a isIn => ?_
        have kind := a.kind
        rw [isIn.2] at kind
        cases kind with
        | number n => exact ⟨n, isIn.1.1, rfl⟩
    · refine .of_zero fun a isIn b isIn' => ?_
      have kind := a.kind
      have kind' := b.kind
      rw [isIn.2] at kind
      rw [isIn'.2] at kind'
      cases kind <;> first | (cases kind'; rfl) | simp at known

theorem Json.Same.type_eq {a b : Json} (same : a.Same b) : a.GetType = b.GetType := by
  cases same <;> rfl

theorem Unmistakable.same {S : Set Json} (unmistakable : Unmistakable S)
    (closed : ∀ xs, .array xs ∈ S → ∀ x ∈ xs, x ∈ S) (size : Nat) :
    ∀ a ∈ upTo S size, ∀ b ∈ S, a.compare b = 0 ↔ a.Same b := by
  induction size with
  | zero => exact fun a isIn => absurd isIn.2 (by omega)
  | succ size ih =>
    intro a isIn b isIn'
    by_cases type : a.GetType = b.GetType
    · have kind := a.kind
      have kind' := b.kind
      rw [← type] at kind'
      generalize a.GetType = place at kind kind'
      cases kind with
      | null =>
        cases kind'
        exact iff_of_true rfl .null
      | false =>
        cases kind'
        exact iff_of_true rfl (.bool .false)
      | true =>
        cases kind'
        exact iff_of_true rfl (.bool .true)
      | object xs =>
        cases kind' with
        | object ys =>
          rw [Json.compare_object, threeWay_eq_zero]
          refine ⟨unmistakable.objects xs ys isIn.1 isIn', fun same => ?_⟩
          cases same with
          | object reordered names _ =>
            have long := congrArg List.length names
            rw [length_map, length_map] at long
            exact reordered.length_eq.trans long
      | array xs =>
        cases kind' with
        | array ys =>
          rw [Json.compare_array, lengthFirst_eq_zero fun x isMem y isMem' =>
            ih x (mem_upTo_of_mem closed isIn x isMem) y (closed ys isIn' y isMem')]
          exact ⟨.array, fun same => by cases same; assumption⟩
      | string s =>
        cases kind' with
        | string t =>
          have compared : (Json.string s).compare (.string t) = strcmp s t := rfl
          rw [compared, strcmp_eq, threeWay_eq_zero]
          refine ⟨fun same => ?_, fun same => by cases same; rfl⟩
          rw [unmistakable.strings s t isIn.1 isIn' (codes_inj same)]
          exact .string t
      | number m =>
        cases kind' with
        | number n =>
          have compared : (Json.number m).compare (.number n) = compareNumbers m n := rfl
          rw [compared, unmistakable.numbers.compareNumbers_eq_zero isIn.1 isIn']
          exact ⟨.number, fun same => by cases same; assumption⟩
    · rw [Json.compare_of_type type]
      exact iff_of_false (by split_ifs <;> decide) fun same => type same.type_eq

/-- On values that are taken apart down to the elements of their arrays, the
comparison is a total order that goes with sameness if and only if it mistakes no
two of them. -/
theorem ordered_iff (S : Set Json) (closed : ∀ xs, .array xs ∈ S → ∀ x ∈ xs, x ∈ S) :
    Ordered S ↔ Unmistakable S := by
  constructor
  · intro ordered
    refine ⟨⟨?_, ?_, ?_⟩, ?_, ?_⟩
    · rintro m inside n inside' isIn isIn' rfl
      have zero : (Json.number (.integer (n - 2 ^ 64) inside)).compare
          (.number (.integer n inside')) = 0 := by
        refine threeWay_eq_zero.mpr ?_
        unfold toInt64 kMaxInt64
        unfold kMinInt64 kMaxUint64 at inside inside'
        split_ifs <;> omega
      cases (ordered.same _ isIn _ isIn').mp zero with
      | number same =>
        have same : ((n - 2 ^ 64 : Int) : ℚ) = n := same
        have same : n - 2 ^ 64 = n := by exact_mod_cast same
        omega
    · intro n inside x isDouble isIn isIn' same
      have zero : (Json.number (.integer n inside)).compare (.number (.double x isDouble)) = 0 :=
        threeWay_eq_zero.mpr same
      cases (ordered.same _ isIn _ isIn').mp zero with
      | number same => exact same
    · rintro m inside n inside' x isDouble isIn isIn' isIn'' wraps small large ⟨le, le'⟩
      have first : (Json.number (.integer m inside)).compare (.number (.double x isDouble)) ≤ 0 :=
        threeWay_le_zero.mpr (toDouble_le isDouble le)
      have second : (Json.number (.double x isDouble)).compare (.number (.integer n inside')) ≤ 0 :=
        threeWay_le_zero.mpr (le_toDouble isDouble le')
      have third := threeWay_le_zero.mp (ordered.trans _ isIn _ isIn'' _ isIn' first second)
      unfold toInt64 at third
      rw [if_pos small, if_neg (by omega)] at third
      omega
    · intro s t isIn isIn' same
      have zero : (Json.string s).compare (.string t) = 0 := by
        refine (strcmp_eq s t).trans (threeWay_eq_zero.mpr ?_)
        rw [codes, same, codes]
      cases (ordered.same _ isIn _ isIn').mp zero
      rfl
    · intro xs ys isIn isIn' long
      refine (ordered.same _ isIn _ isIn').mp ?_
      rw [Json.compare_object, long]
      exact threeWay_eq_zero.mpr rfl
  · intro unmistakable
    have orders := unmistakable.ordersOn closed
    refine ⟨?_, ?_, ?_, ?_⟩
    · intro a isIn
      exact (orders (sizeOf a + 1)).refl a ⟨isIn, by omega⟩
    · intro a isIn b isIn'
      exact (orders (sizeOf a + sizeOf b + 1)).antisymm a ⟨isIn, by omega⟩ b
        ⟨isIn', by omega⟩
    · intro a isIn b isIn' c isIn''
      exact (orders (sizeOf a + sizeOf b + sizeOf c + 1)).trans a ⟨isIn, by omega⟩ b
        ⟨isIn', by omega⟩ c ⟨isIn'', by omega⟩
    · intro a isIn
      exact unmistakable.same closed (sizeOf a + 1) a ⟨isIn, by omega⟩

/-- A string, an array that has it and an empty object. -/
theorem ordered_of_string :
    Ordered {a | a = .string [97] ∨ a = .array [.string [97]] ∨ a = .object []} := by
  refine (ordered_iff _ ?_).mpr ⟨⟨?_, ?_, ?_⟩, ?_, ?_⟩
  · rintro xs (isIn | isIn | isIn) x isMem <;> cases isIn
    exact .inl (mem_singleton.mp isMem)
  · rintro m inside n inside' (isIn | isIn | isIn) <;> cases isIn
  · rintro n inside x isDouble (isIn | isIn | isIn) <;> cases isIn
  · rintro m inside n inside' x isDouble (isIn | isIn | isIn) <;> cases isIn
  · rintro s t (isIn | isIn | isIn) (isIn' | isIn' | isIn') - <;> cases isIn <;> cases isIn'
    rfl
  · rintro xs ys (isIn | isIn | isIn) (isIn' | isIn' | isIn') - <;> cases isIn <;> cases isIn'
    exact .object (List.Perm.refl []) rfl .nil

/-- `{"a": null}` and `{"b": null}` are not told apart. -/
theorem not_ordered_objects : ¬Ordered Set.univ := by
  intro ordered
  cases (ordered.same (.object [([97], .null)]) (Set.mem_univ _) (.object [([98], .null)])
    (Set.mem_univ _)).mp rfl with
  | object reordered names _ =>
    rw [← singleton_perm.mp reordered] at names
    cases names

end Mnn.Llm.Ujson
