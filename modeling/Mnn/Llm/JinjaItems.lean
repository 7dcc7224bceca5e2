import Mnn.Foundation.IntRanges
import Mnn.Llm.Ujson

/-!
# Items and slices in templates

The value of `object[key]`.  A number that `long` cannot hold ends the evaluation
without a value, and so does the assertion of RapidJSON that an integer is signed;
`fuel` bounds the loops over a slice.
-/

namespace Mnn.Llm.Jinja

open Mnn.Foundation.IntRanges
open Mnn.Llm.Ujson
open List
open Option

def fitsLong (n : Int) : Bool := kMinInt64 ≤ n ∧ n ≤ kMaxInt64

/-- The value of a slice expression. -/
def sliceKey (start stop step : Json) : Json :=
  .object [(text "_type", .string (text "slice")), (text "start", start),
    (text "stop", stop), (text "step", step)]

def isSlice (key_val : Json) : Bool := (key_val.item (text "_type")).getString == text "slice"

/-- `has_x ? key_val[x].get<long>() : …` -/
def optionalLong (json : Json) : Option (Option Int) :=
  if json.is_null then some none else json.getLong.map some

/-- Where the loop starts; the length does not depend on the sign of the step. -/
def sliceStart (len step : Int) : Option Int → Int
  | some start =>
    let start := if start < 0 then start + len else start
    let start := if start < 0 then 0 else start
    if len < start then len else start
  | none => if 0 < step then 0 else len - 1

def sliceStop (len step : Int) : Option Int → Int
  | some stop => if stop < 0 then stop + len else stop
  | none => if 0 < step then len else -1

/-- The loops over the elements. -/
def sliceLoop (fuel : Nat) (obj_val : List Json) (step : Int) (start stop : Option Int) :
    Option (List Json) :=
  let len : Int := obj_val.length
  let step := if step = 0 then 1 else step
  let start := sliceStart len step start
  let stop := sliceStop len step stop
  if 0 < step then
    loop (fun i => i < stop && i < len) (fun i => obj_val[i.toNat]?) fitsLong step fuel start
  else
    loop (fun i => stop < i && 0 ≤ i && i < len) (fun i => obj_val[i.toNat]?)
      fitsLong step fuel start

def sliceElements (fuel : Nat) (obj_val : List Json) (key_val : Json) : Option (List Json) := do
  let step ← optionalLong (key_val.item (text "step"))
  let start ← optionalLong (key_val.item (text "start"))
  let stop ← optionalLong (key_val.item (text "stop"))
  sliceLoop fuel obj_val (step.getD 1) start stop

/-- `GetItemExpr::evaluate` of the values of its parts. -/
def getItem (fuel : Nat) (obj_val key_val : Json) : Option Json :=
  match obj_val, key_val with
  | .array elements, key_val =>
    if isSlice key_val then
      (sliceElements fuel elements key_val).map .array
    else if key_val.is_number_integer then do
      let idx ← key_val.getLong
      let idx := if idx < 0 then idx + elements.length else idx
      if 0 ≤ idx then
        some ((elements[idx.toNat]?).getD (.string []))
      else
        some (.string [])
    else
      some (.string [])
  | .object members, .string k => some (((Json.object members).find k).getD (.string []))
  | _, _ => some (.string [])

/-!
# Slices of arrays

Python's slices clamp both bounds to the ends of the list, from which a negative
step starts at the last element.  The source clamps the start without regard to the
sign of the step, and so goes wrong where a negative step starts outside of the
array and the stop would still let elements through.
-/

/-! ## Slices of lists -/

/-- The bound that a slice is clamped to from below. -/
def pyLower (step : Int) : Int :=
  if step < 0 then -1 else 0

/-- The bound that a slice is clamped to from above. -/
def pyUpper (len step : Int) : Int :=
  if step < 0 then len - 1 else len

/-- A bound that is given, counted from the end if it is negative. -/
def pyBound (len step n : Int) : Int :=
  if n < 0 then max (n + len) (pyLower step) else min n (pyUpper len step)

def pyStart (len step : Int) : Option Int → Int
  | some start => pyBound len step start
  | none => if step < 0 then pyUpper len step else pyLower step

def pyStop (len step : Int) : Option Int → Int
  | some stop => pyBound len step stop
  | none => if step < 0 then pyLower step else pyUpper len step

/-- `list[start:stop:step]` -/
def pySlice {A : Type} (xs : List A) (start stop : Option Int) (step : Int) : List A :=
  (range (pyStart xs.length step start) (pyStop xs.length step stop) step).filterMap
    fun i => xs[i.toNat]?

example : pySlice [0, 1, 2, 3, 4] (some 10) none (-2) = [4, 2, 0] := by decide

/-! ## Bounds -/

/-- An integer of a JSON value. -/
abbrev Integer := {n : Int // kMinInt64 ≤ n ∧ n ≤ kMaxUint64}

/-- A bound, null if it is not given. -/
def ofOptional : Option Integer → Json
  | some n => .number (.integer n.1 n.2)
  | none => .null

def IsSigned (n : Option Integer) : Prop := ∀ x ∈ n, x.1 ≤ kMaxInt64

instance (n : Option Integer) : Decidable (IsSigned n) :=
  match n with
  | none => .isTrue fun _ isSome => absurd isSome (not_mem_none _)
  | some x =>
    if signed : x.1 ≤ kMaxInt64 then
      .isTrue fun y isSome => by
        cases isSome
        exact signed
    else
      .isFalse fun all => signed (all x rfl)

theorem optionalLong_ofOptional (n : Option Integer) :
    optionalLong (ofOptional n) =
      if IsSigned n then some (n.map Subtype.val) else none := by
  cases n with
  | none =>
    have signed : IsSigned none := fun _ isSome => absurd isSome (not_mem_none _)
    rw [if_pos signed]
    rfl
  | some x =>
    by_cases signed : x.1 ≤ kMaxInt64
    · have all : IsSigned (some x) := fun y isSome => by
        cases isSome
        exact signed
      rw [if_pos all]
      simp [optionalLong, ofOptional, Json.is_null, Json.getLong, signed]
    · have notAll : ¬IsSigned (some x) := fun all => signed (all x rfl)
      rw [if_neg notAll]
      simp [optionalLong, ofOptional, Json.is_null, Json.getLong, signed]

/-- The step, one if it is not given. -/
def stepOf (step : Option Integer) : Int := (step.map Subtype.val).getD 1

theorem sliceElements_sliceKey (fuel : Nat) (xs : List Json) (start stop step : Option Integer) :
    sliceElements fuel xs (sliceKey (ofOptional start) (ofOptional stop) (ofOptional step)) =
      if IsSigned step ∧ IsSigned start ∧ IsSigned stop then
        sliceLoop fuel xs (stepOf step) (start.map Subtype.val) (stop.map Subtype.val)
      else
        none := by
  have isStep : (sliceKey (ofOptional start) (ofOptional stop) (ofOptional step)).item
    (text "step") = ofOptional step := rfl
  have isStart : (sliceKey (ofOptional start) (ofOptional stop) (ofOptional step)).item
    (text "start") = ofOptional start := rfl
  have isStop : (sliceKey (ofOptional start) (ofOptional stop) (ofOptional step)).item
    (text "stop") = ofOptional stop := rfl
  rw [sliceElements, isStep, isStart, isStop, optionalLong_ofOptional,
    optionalLong_ofOptional, optionalLong_ofOptional]
  by_cases stepSigned : IsSigned step <;> by_cases startSigned : IsSigned start <;>
    by_cases stopSigned : IsSigned stop <;>
    simp only [stepSigned, startSigned, stopSigned, if_true, if_false, and_true, and_false,
      bind_eq_bind, bind_some, bind_none, stepOf]

/-! ## Loops -/

section Loops

variable {xs : List Json} {first stop step : Int}

/-- The element at a place of the array. -/
def elementAt (xs : List Json) (i : Int) : Json := xs.getD i.toNat .null

theorem getElem?_of_inside {i : Int} (inside : 0 ≤ i ∧ i < xs.length) :
    xs[i.toNat]? = some (elementAt xs i) := by
  have less : i.toNat < xs.length := by omega
  rw [elementAt, getD_eq_getElem?_getD, List.getElem?_eq_getElem less, getD_some]

theorem loop_up_iff (up : 0 < step) (inside : 0 ≤ first) (result : List Json) :
    (∃ fuel, loop (fun i => i < stop && i < xs.length) (fun i => xs[i.toNat]?) fitsLong
        step fuel first = some result) ↔
      (∀ i ∈ range first (min stop xs.length) step, fitsLong (i + step) = true) ∧
        result = (range first (min stop xs.length) step).map (elementAt xs) := by
  refine loop_iff up.ne' (elementAt xs) (fun n => ?_) (fun i isMem => ?_) result
  · generalize first + n * step = i
    simp only [Bool.and_eq_true, decide_eq_true_eq, Goes]
    omega
  · have bounds := bounds_of_mem_range up.ne' isMem
    exact getElem?_of_inside (by omega)

theorem loop_down_iff (down : step < 0) (inside : first < xs.length) (result : List Json) :
    (∃ fuel, loop (fun i => stop < i && 0 ≤ i && i < xs.length) (fun i => xs[i.toNat]?)
        fitsLong step fuel first = some result) ↔
      (∀ i ∈ range first (max stop (-1)) step, fitsLong (i + step) = true) ∧
        result = (range first (max stop (-1)) step).map (elementAt xs) := by
  refine loop_iff down.ne (elementAt xs) (fun n => ?_) (fun i isMem => ?_) result
  · have below : (n : Int) * step ≤ 0 :=
      Int.mul_nonpos_of_nonneg_of_nonpos (Int.natCast_nonneg n) down.le
    generalize (n : Int) * step = moved at below
    simp only [Bool.and_eq_true, decide_eq_true_eq, Goes]
    omega
  · have bounds := bounds_of_mem_range down.ne isMem
    exact getElem?_of_inside (by omega)

theorem loop_outside_iff (outside : (xs.length : Int) ≤ first) (result : List Json) :
    (∃ fuel, loop (fun i => stop < i && 0 ≤ i && i < xs.length) (fun i => xs[i.toNat]?)
        fitsLong step fuel first = some result) ↔ result = [] := by
  have stops : (decide (stop < first) && decide (0 ≤ first) &&
      decide (first < xs.length)) = false := by
    simp only [Bool.and_eq_false_iff, decide_eq_false_iff_not]
    omega
  constructor
  · rintro ⟨fuel, returns⟩
    cases fuel with
    | zero => cases returns
    | succ fuel =>
      rw [loop, stops] at returns
      cases returns
      rfl
  · rintro rfl
    exact ⟨1, by rw [loop, stops]; rfl⟩

end Loops

/-! ## Agreement -/

section Agreement

variable {xs : List Json} {start stop : Option Int} {step : Int}

theorem pySlice_inside (different : step ≠ 0) {i : Int}
    (isMem : i ∈ range (pyStart xs.length step start) (pyStop xs.length step stop) step) :
    0 ≤ i ∧ i < xs.length := by
  have bounds := bounds_of_mem_range different isMem
  rcases start with _ | x <;> rcases stop with _ | y <;>
    simp only [pyStart, pyStop, pyBound, pyLower, pyUpper] at bounds <;>
    split_ifs at bounds <;> omega

theorem pySlice_eq (different : step ≠ 0) :
    pySlice xs start stop step =
      (range (pyStart xs.length step start) (pyStop xs.length step stop) step).map
        (elementAt xs) := by
  rw [pySlice, ← filterMap_eq_map]
  refine filterMap_congr fun i isMem => ?_
  exact getElem?_of_inside (pySlice_inside different isMem)

/-- Where a slice goes right. -/
structure Sliceable (len : Int) (start stop : Option Int) (step : Int) : Prop where
  forth : 0 < step → pyStart len step start < pyStop len step stop →
    pyStart len step start + step ≤ kMaxInt64
  behind : step < 0 → 0 < len → ∀ s ∈ start, len ≤ s → ∃ e ∈ stop, e = -1 ∨ len - 1 ≤ e
  before : step < 0 → 0 < len → ∀ s ∈ start, s < -len → ∃ e ∈ stop, -len ≤ e

theorem sliceLoop_up (up : 0 < step) (short : xs.length < 2 ^ 32) :
    (∃ fuel, sliceLoop fuel xs step start stop = some (pySlice xs start stop step)) ↔
      Sliceable xs.length start stop step := by
  have startsThere : sliceStart xs.length step start = pyStart xs.length step start := by
    rcases start with _ | x <;>
      simp only [sliceStart, pyStart, pyBound, pyLower, pyUpper] <;> split_ifs <;> omega
  have least : 0 ≤ pyStart xs.length step start := by
    rcases start with _ | x <;> simp only [pyStart, pyBound, pyLower, pyUpper] <;>
      split_ifs <;> omega
  have sameRange : range (pyStart xs.length step start)
      (min (sliceStop xs.length step stop) xs.length) step =
      range (pyStart xs.length step start) (pyStop xs.length step stop) step := by
    refine range_congr up.ne' ?_
    unfold Goes
    rcases stop with _ | y <;> simp only [sliceStop, pyStop, pyBound, pyLower, pyUpper] <;>
      split_ifs <;> omega
  have loops (fuel : Nat) : sliceLoop fuel xs step start stop =
      loop (fun i => i < sliceStop xs.length step stop && i < xs.length)
        (fun i => xs[i.toNat]?) fitsLong step fuel (pyStart xs.length step start) := by
    simp only [sliceLoop, if_neg up.ne', if_pos up, startsThere]
  simp only [loops]
  rw [loop_up_iff up least, sameRange, pySlice_eq up.ne', and_iff_left rfl]
  constructor
  · intro fits
    refine ⟨fun _ goes => ?_, fun down => by omega, fun down => by omega⟩
    have isMem : pyStart xs.length step start ∈
        range (pyStart xs.length step start) (pyStop xs.length step stop) step := by
      rw [range_of_goes (.inl ⟨up, goes⟩)]
      exact mem_cons_self
    have fit := fits _ isMem
    simp only [fitsLong, decide_eq_true_eq] at fit
    exact fit.2
  · intro sliceable i isMem
    have inside := pySlice_inside up.ne' isMem
    have bounds := bounds_of_mem_range up.ne' isMem
    have goes : pyStart xs.length step start < pyStop xs.length step stop := by omega
    have first := sliceable.forth up goes
    rw [range_of_goes (.inl ⟨up, goes⟩)] at isMem
    simp only [fitsLong, decide_eq_true_eq]
    unfold kMaxInt64 at first ⊢
    unfold kMinInt64
    rcases mem_cons.mp isMem with rfl | isMem
    · omega
    · -- A second element keeps the step below the length.
      have further := bounds_of_mem_range up.ne' isMem
      omega

theorem sliceable_down_iff {len : Int} (down : step < 0) :
    Sliceable len start stop step ↔
      (0 < len → ∀ s ∈ start, len ≤ s → ∃ e ∈ stop, e = -1 ∨ len - 1 ≤ e) ∧
        (0 < len → ∀ s ∈ start, s < -len → ∃ e ∈ stop, -len ≤ e) :=
  ⟨fun sliceable => ⟨sliceable.behind down, sliceable.before down⟩,
    fun ⟨behind, before⟩ => ⟨fun up => by omega, fun _ => behind, fun _ => before⟩⟩

theorem sliceLoop_down (down : step < 0) (small : kMinInt64 ≤ step) (short : xs.length < 2 ^ 32) :
    (∃ fuel, sliceLoop fuel xs step start stop = some (pySlice xs start stop step)) ↔
      Sliceable xs.length start stop step := by
  have loops (fuel : Nat) : sliceLoop fuel xs step start stop =
      loop (fun i => sliceStop xs.length step stop < i && 0 ≤ i && i < xs.length)
        (fun i => xs[i.toNat]?) fitsLong step fuel (sliceStart xs.length step start) := by
    simp only [sliceLoop, if_neg down.ne, if_neg down.not_gt]
  have upper : pyUpper xs.length step = xs.length - 1 := if_pos down
  have lower : pyLower step = -1 := if_pos down
  have notUp : ¬0 < step := by omega
  simp only [loops]
  rw [pySlice_eq down.ne, sliceable_down_iff down]
  by_cases outside : (xs.length : Int) ≤ sliceStart xs.length step start
  · -- The loop takes nothing; Python begins with the last element.
    rw [loop_outside_iff outside, map_eq_nil_iff, range_eq_nil_iff down.ne]
    unfold Goes
    cases start with
    | none =>
      simp only [sliceStart, if_neg notUp] at outside
      omega
    | some x =>
      cases stop <;>
        simp only [sliceStart, pyStart, pyStop, pyBound, upper, lower, if_pos down,
          mem_def, some.injEq, forall_eq', exists_eq_left',
          reduceCtorEq, false_and, exists_false, imp_false] at outside ⊢ <;>
        split_ifs at outside ⊢ <;> omega
  · rw [loop_down_iff down (not_le.mp outside)]
    have fits : ∀ i ∈ range (sliceStart xs.length step start)
        (max (sliceStop xs.length step stop) (-1)) step, fitsLong (i + step) = true := by
      intro i isMem
      have bounds := bounds_of_mem_range down.ne isMem
      simp only [fitsLong, decide_eq_true_eq]
      unfold kMaxInt64
      unfold kMinInt64 at small ⊢
      omega
    rw [and_iff_right fits]
    by_cases before : ∃ x ∈ start, x < -xs.length
    · -- Python takes nothing; the loop begins with the first element.
      obtain ⟨x, rfl, before⟩ := before
      have none : range (pyStart xs.length step (some x)) (pyStop xs.length step stop)
          step = [] := by
        refine range_of_not_goes down.ne ?_
        unfold Goes
        cases stop <;> simp only [pyStart, pyStop, pyBound, upper, lower, if_pos down] <;>
          split_ifs <;> omega
      rw [none, map_nil, eq_comm, map_eq_nil_iff, range_eq_nil_iff down.ne]
      unfold Goes
      cases stop <;>
        simp only [sliceStart, sliceStop, if_neg notUp, mem_def, some.injEq,
          forall_eq', exists_eq_left', reduceCtorEq, false_and, exists_false, imp_false]
          at outside ⊢ <;>
        split_ifs at outside ⊢ <;> omega
    · have inside : ∀ x ∈ start, -xs.length ≤ x ∧ x < xs.length := by
        rintro x rfl
        have least : ¬x < -xs.length := fun less => before ⟨x, rfl, less⟩
        simp only [sliceStart] at outside
        split_ifs at outside <;> omega
      have startsThere : sliceStart xs.length step start = pyStart xs.length step start := by
        cases start with
        | none => simp only [sliceStart, pyStart, upper, if_pos down, if_neg notUp]
        | some x =>
          have bounds := inside x rfl
          simp only [sliceStart, pyStart, pyBound, upper, lower]
          split_ifs <;> omega
      have sameRange : range (pyStart xs.length step start)
          (max (sliceStop xs.length step stop) (-1)) step =
          range (pyStart xs.length step start) (pyStop xs.length step stop) step := by
        rw [startsThere] at outside
        refine range_congr down.ne ?_
        unfold Goes
        cases stop with
        | none =>
          simp only [sliceStop, pyStop, lower, if_pos down, if_neg notUp]
          omega
        | some y =>
          simp only [sliceStop, pyStop, pyBound, upper, lower]
          split_ifs <;> omega
      rw [startsThere, sameRange]
      refine iff_of_true rfl ⟨fun _ x isStart le => ?_, fun _ x isStart less => ?_⟩
      · have bounds := inside x isStart
        omega
      · have bounds := inside x isStart
        omega

end Agreement

theorem getItem_sliceKey_iff (xs : List Json) (start stop step : Option Integer)
    (elements : List Json) :
    (∃ fuel, getItem fuel (.array xs)
        (sliceKey (ofOptional start) (ofOptional stop) (ofOptional step)) =
          some (.array elements)) ↔
      (IsSigned step ∧ IsSigned start ∧ IsSigned stop) ∧
        ∃ fuel, sliceLoop fuel xs (stepOf step) (start.map Subtype.val)
          (stop.map Subtype.val) = some elements := by
  have isKey : isSlice (sliceKey (ofOptional start) (ofOptional stop) (ofOptional step)) :=
    rfl
  simp only [getItem, if_pos isKey, sliceElements_sliceKey, map_eq_some_iff,
    Json.array.injEq, exists_eq_right]
  split_ifs with signed
  · rw [and_iff_right signed]
  · exact iff_of_false (fun ⟨_, returns⟩ => by cases returns) fun both => signed both.1

/-- A slice is Python's if and only if its bounds are signed integers and no bound
is in one of the places where the clamping goes wrong. -/
theorem slice_iff (xs : List Json) (short : xs.length < 2 ^ 32)
    (start stop step : Option Integer) (different : stepOf step ≠ 0) :
    (∃ fuel, getItem fuel (.array xs)
        (sliceKey (ofOptional start) (ofOptional stop) (ofOptional step)) =
          some (.array (pySlice xs (start.map Subtype.val) (stop.map Subtype.val) (stepOf step)))) ↔
      (IsSigned step ∧ IsSigned start ∧ IsSigned stop) ∧
        Sliceable xs.length (start.map Subtype.val) (stop.map Subtype.val) (stepOf step) := by
  rw [getItem_sliceKey_iff]
  refine and_congr_right fun _ => ?_
  rcases lt_or_gt_of_ne different with down | up
  · refine sliceLoop_down down ?_ short
    cases step with
    | none => decide
    | some step => exact step.2.1
  · exact sliceLoop_up up short

/-- `[null, true][::-1]` -/
theorem slice_reversed : ∃ fuel, getItem fuel (.array [.null, .bool true])
      (sliceKey (ofOptional none) (ofOptional none)
        (ofOptional (some ⟨-1, by decide⟩))) = some (.array [.bool true, .null]) :=
  (slice_iff [.null, .bool true] (by decide) none none (some ⟨-1, by decide⟩)
    (by decide)).mpr
      ⟨by decide, ⟨fun _ _ => by decide, fun _ _ _ isSome => absurd isSome (by simp),
        fun _ _ _ isSome => absurd isSome (by simp)⟩⟩

/-- `[null, true][-5::-1]` has nothing, and `[null]` is returned. -/
theorem not_slice_from_before : ¬∃ fuel, getItem fuel (.array [.null, .bool true])
      (sliceKey (ofOptional (some ⟨-5, by decide⟩)) (ofOptional none)
        (ofOptional (some ⟨-1, by decide⟩))) =
          some (.array (pySlice [.null, .bool true] (some (-5)) none (-1))) := by
  intro returns
  have loops := ((getItem_sliceKey_iff _ _ _ _ _).mp returns).2
  have sliceable := (sliceLoop_down (by decide) (by decide) (by decide)).mp loops
  obtain ⟨e, isNone, -⟩ := sliceable.before (by decide) (by decide) (-5) rfl (by decide)
  cases isNone

end Mnn.Llm.Jinja
