import Mnn.Cpu.CPURaster
import Mnn.Foundation.GroupedSums

/-!
# Regions that sum on the CPU

Where a region moves along an axis and stays at a cell of the output, `_reduceblit`
adds up what it moves.  Elements of two bytes are converted into a buffer first,
and the buffer is indexed with the stride of the source.

Numbers are exact.  What is read outside of the buffer is anything.
-/

namespace Mnn.Cpu.CPURaster

open Mnn.Core.Raster
open Mnn.Foundation.LoopNests
open Mnn.Foundation.GroupedSums
open List

structure ReduceInfo where
  reduceIndex : List (Fin 3) := []
  normalIndex : List (Fin 3) := []

namespace ReduceInfo

def reduceNum (info : ReduceInfo) : Nat := info.reduceIndex.length

def compute (slice : Region) : ReduceInfo := [(0 : Fin 3), 1, 2].foldl (fun info i =>
      if slice.size i > 1 ∧ slice.dst.stride i = 0 then
        { info with reduceIndex := info.reduceIndex ++ [i] }
      else
        { info with normalIndex := info.normalIndex ++ [i] })
    {}

end ReduceInfo

/-- What is added: a cell of the source, or `fp32Buffer` at an index. -/
inductive Term where
  | source (cell : Int)
  /-- So many cells are converted, from the first one on. -/
  | buffer (first : Int) (size : Nat) (index : Int)

namespace Term

def value (source garbage : Int → ℚ) : Term → ℚ
  | .source cell => source cell
  | .buffer first size index =>
    if 0 ≤ index ∧ index < size then source (first + index) else garbage index

/-- The cells of the source that are read for it. -/
def reads : Term → List Int
  | .source cell => [cell]
  | .buffer first size _ => (List.range size).map fun (k : Nat) => first + k

/-- The buffer is not left. -/
def Inside : Term → Prop
  | .source _ => True
  | .buffer _ size index => 0 ≤ index ∧ index < size

end Term

/-- What is stored to a cell of the output. -/
structure Summer where
  cell : Int
  terms : List Term

/-- `S[index]`, where `S` is the source or a buffer of some converted elements. -/
def readAt (bytes : Nat) (srcY : Int) (size : Nat) (index : Int) : Term :=
  if bytes = 2 then .buffer srcY size index else .source (srcY + index)

/-- All axes are reduced. -/
def reduceThree (slice : Region) (bytes : Nat) (srcPtr dstPtr : Int) : List Summer :=
  [{ cell := dstPtr
     terms := (List.range (slice.size 0).toNat).flatMap fun (z : Nat) =>
        (List.range (slice.size 1).toNat).flatMap fun (y : Nat) =>
          let srcY := srcPtr + z * slice.src.stride 0 + y * slice.src.stride 1
          (List.range (slice.size 2).toNat).map fun (x : Nat) =>
            readAt bytes srcY 1 (slice.src.stride 2 * x) }]

/-- One axis is kept. -/
def reduceTwo (slice : Region) (bytes : Nat) (srcPtr dstPtr : Int) (indexZ indexY indexX : Fin 3) :
    List Summer :=
  (List.range (slice.size indexZ).toNat).map fun (z : Nat) =>
    { cell := dstPtr + z * slice.dst.stride indexZ
      terms := (List.range (slice.size indexY).toNat).flatMap fun (y : Nat) =>
          let srcY := srcPtr + z * slice.src.stride indexZ + y * slice.src.stride indexY
          (List.range (slice.size indexX).toNat).map fun (x : Nat) =>
            readAt bytes srcY 1 (slice.src.stride indexX * x) }

/-- Two axes are kept. -/
def reduceOne (slice : Region) (bytes : Nat) (srcPtr dstPtr : Int) (indexZ indexY indexX : Fin 3) :
    List Summer :=
  let sizeX := (slice.size indexX).toNat
  (List.range (slice.size indexZ).toNat).flatMap fun (z : Nat) =>
    (List.range (slice.size indexY).toNat).map fun (y : Nat) =>
      let srcY := srcPtr + z * slice.src.stride indexZ + y * slice.src.stride indexY
      { cell := dstPtr + z * slice.dst.stride indexZ + y * slice.dst.stride indexY
        terms := (List.range sizeX).map fun (x : Nat) =>
            readAt bytes srcY sizeX (slice.src.stride indexX * x) }

/-- There is no outcome if it returns `false`, and nothing is stored. -/
def _reduceblit (slice : Region) (bytes : Nat) (srcPtr dstPtr : Int) : Option (List Summer) :=
  let info := ReduceInfo.compute slice
  match info.reduceIndex, info.normalIndex with
  | [_, _, _], _ => some (reduceThree slice bytes srcPtr dstPtr)
  | [reduceY, reduceX], [normalZ] =>
    some (reduceTwo slice bytes srcPtr dstPtr normalZ reduceY reduceX)
  | [reduceX], [normalZ, normalY] =>
    some (reduceOne slice bytes srcPtr dstPtr normalZ normalY reduceX)
  | _, _ => none

/-- The output behind what is stored. -/
def store (summers : List Summer) (source garbage target : Int → ℚ) : Int → ℚ := storeAll
    (summers.map fun summer =>
      (summer.cell, (summer.terms.map (Term.value source garbage)).sum))
    target

/--
Each cell of the output that the region moves to gets the sum of what it moves
there, and nothing else is read.
-/
structure Sums (slice : Region) (summers : List Summer) : Prop where
  stores :
    ∀ source garbage target : Int → ℚ, store summers source garbage target =
        sumAll (slice.moves.map fun move => (move.2, source move.1)) target
  reads : ∀ summer ∈ summers, ∀ term ∈ summer.terms, ∀ cell ∈ term.reads, slice.Reads cell
  inside : ∀ summer ∈ summers, ∀ term ∈ summer.terms, term.Inside

/-!
# What a region sums on the CPU

The loops over the axes that are kept stay outside, and the other loops make
the terms of one cell.  So the sums are right if the kept axes visit no cell
twice.  With elements of two bytes the innermost loop has to read the buffer as
it was filled: element by element, or always the only one.
-/

/-! ## The loops -/

def Reduced (slice : Region) (axis : Fin 3) : Prop :=
  slice.size axis > 1 ∧ slice.dst.stride axis = 0

instance (slice : Region) (axis : Fin 3) : Decidable (Reduced slice axis) :=
  inferInstanceAs (Decidable (_ ∧ _))

/-- The terms of a cell, with one loop inside the others. -/
def summersOf (slice : Region) (bytes : Nat) (kept outer : List (Fin 3)) (inner : Fin 3)
    (size : Nat) (srcPtr dstPtr : Int) : List Summer :=
  (nest (kept.map (loopAt slice))).map fun keptMove =>
    { cell := dstPtr + keptMove.2
      terms := (nest (outer.map (loopAt slice))).flatMap fun outerMove =>
          (List.range (slice.size inner).toNat).map fun (x : Nat) =>
            readAt bytes (srcPtr + keptMove.1 + outerMove.1) size (slice.src.stride inner * x) }

section Nests

variable (slice : Region) (bytes : Nat) (srcPtr dstPtr : Int)

theorem reduceThree_eq :
    reduceThree slice bytes srcPtr dstPtr = summersOf slice bytes [] [0, 1] 2 1 srcPtr dstPtr := by
  simp [reduceThree, summersOf, nest, shifted, loopAt, flatMap_assoc, map_eq_flatMap, add_assoc]

theorem reduceTwo_eq (z y x : Fin 3) :
    reduceTwo slice bytes srcPtr dstPtr z y x =
      summersOf slice bytes [z] [y] x 1 srcPtr dstPtr := by
  simp [reduceTwo, summersOf, nest, shifted, loopAt, flatMap_assoc, map_eq_flatMap, add_assoc]

theorem reduceOne_eq (z y x : Fin 3) :
    reduceOne slice bytes srcPtr dstPtr z y x =
      summersOf slice bytes [z, y] [] x (slice.size x).toNat srcPtr dstPtr := by
  simp [reduceOne, summersOf, nest, shifted, loopAt, flatMap_assoc, map_eq_flatMap, add_assoc]

end Nests

theorem reduceblit_cases (slice : Region) (bytes : Nat) (srcPtr dstPtr : Int) :
    ((ReduceInfo.compute slice).reduceIndex = [] ∧ _reduceblit slice bytes srcPtr dstPtr = none) ∨
      ∃ outer inner, (ReduceInfo.compute slice).reduceIndex = outer ++ [inner] ∧
          _reduceblit slice bytes srcPtr dstPtr =
            some (summersOf slice bytes (ReduceInfo.compute slice).normalIndex outer inner
              (if outer = [] then (slice.size inner).toNat else 1) srcPtr dstPtr) := by
  have isCompute : ReduceInfo.compute slice = [(0 : Fin 3), 1, 2].foldl (fun info i =>
            if Reduced slice i then
              { info with reduceIndex := info.reduceIndex ++ [i] }
            else
              { info with normalIndex := info.normalIndex ++ [i] })
          {} := rfl
  rw [_reduceblit, isCompute]
  by_cases first : Reduced slice 0 <;> by_cases second : Reduced slice 1 <;>
    by_cases third : Reduced slice 2 <;>
    simp only [foldl_cons, foldl_nil, first, second, third, if_true, if_false,
      nil_append, cons_append]
  · exact Or.inr ⟨[0, 1], 2, rfl, congrArg some (reduceThree_eq ..)⟩
  · exact Or.inr ⟨[0], 1, rfl, congrArg some (reduceTwo_eq ..)⟩
  · exact Or.inr ⟨[0], 2, rfl, congrArg some (reduceTwo_eq ..)⟩
  · exact Or.inr ⟨[], 0, rfl, congrArg some (reduceOne_eq ..)⟩
  · exact Or.inr ⟨[1], 2, rfl, congrArg some (reduceTwo_eq ..)⟩
  · exact Or.inr ⟨[], 1, rfl, congrArg some (reduceOne_eq ..)⟩
  · exact Or.inr ⟨[], 2, rfl, congrArg some (reduceOne_eq ..)⟩
  · exact Or.inl ⟨trivial, trivial⟩

theorem compute_spec (slice : Region) :
    ((ReduceInfo.compute slice).normalIndex ++
        (ReduceInfo.compute slice).reduceIndex).Perm [0, 1, 2] ∧
      (∀ i ∈ (ReduceInfo.compute slice).reduceIndex, Reduced slice i) ∧
      ∀ i ∈ (ReduceInfo.compute slice).normalIndex, ¬Reduced slice i := by
  have isCompute : ReduceInfo.compute slice = [(0 : Fin 3), 1, 2].foldl (fun info i =>
            if Reduced slice i then
              { info with reduceIndex := info.reduceIndex ++ [i] }
            else
              { info with normalIndex := info.normalIndex ++ [i] })
          {} := rfl
  rw [isCompute]
  by_cases first : Reduced slice 0 <;> by_cases second : Reduced slice 1 <;>
    by_cases third : Reduced slice 2 <;>
    simp only [foldl_cons, foldl_nil, first, second, third, if_true, if_false,
      nil_append, cons_append, append_nil] <;>
    refine ⟨by decide, ?_, ?_⟩ <;> simp [first, second, third]

theorem right_of_mem_nest {loops : List Loop} (stay : ∀ loop ∈ loops, loop.right = 0) :
    ∀ move ∈ nest loops, move.2 = 0 := by
  induction loops with
  | nil =>
    intro move isIn
    rw [mem_singleton.mp isIn]
  | cons loop loops ih =>
    intro move isIn
    rcases mem_flatMap.mp isIn with ⟨i, -, isIn⟩
    rcases mem_map.mp isIn with ⟨behind, isBehind, rfl⟩
    rw [ih (fun other isOther => stay other (mem_cons_of_mem _ isOther))
      behind isBehind, stay loop mem_cons_self, mul_zero, add_zero]

section Reducing

variable {slice : Region} {outer : List (Fin 3)} {inner : Fin 3}

/-- The moves of a region, those to one cell behind each other. -/
theorem moves_perm (isReduced : (ReduceInfo.compute slice).reduceIndex = outer ++ [inner]) :
    slice.moves.Perm ((nest ((ReduceInfo.compute slice).normalIndex.map (loopAt slice))).flatMap
        fun keptMove =>
          (nest (outer.map (loopAt slice))).flatMap fun outerMove =>
            (List.range (slice.size inner).toNat).map fun (x : Nat) =>
              (slice.src.offset + keptMove.1 + outerMove.1 + slice.src.stride inner * x,
                slice.dst.offset + keptMove.2)) := by
  rcases compute_spec slice with ⟨isPerm, reduced, -⟩
  rw [isReduced] at isPerm reduced
  rw [Mnn.Geometry.moves_eq_nest]
  refine (shifted_perm (nest_perm (isPerm.symm.map (loopAt slice))) _ _).trans ?_
  rw [map_append, nest_append, shifted_flatMap]
  refine List.Perm.flatMap_left _ fun keptMove _ => ?_
  rw [map_append, nest_append, shifted_shifted, shifted_flatMap]
  refine List.Perm.of_eq (flatMap_congr fun outerMove isIn => ?_)
  have stays : outerMove.2 = 0 := by
    refine right_of_mem_nest (fun loop isLoop => ?_) outerMove isIn
    rcases mem_map.mp isLoop with ⟨axis, isAxis, rfl⟩
    exact (reduced axis (mem_append_left _ isAxis)).2
  have isInner : (loopAt slice inner).right = 0 :=
    (reduced inner (mem_append_cons_self)).2
  rw [shifted_shifted, stays]
  simp only [map_cons, map_nil, nest, shifted, isInner, mul_zero, add_zero,
    ← map_eq_flatMap, map_map]
  refine map_congr_left fun x _ => ?_
  rw [Function.comp_apply, add_zero, mul_comm (slice.src.stride inner)]
  rfl

/-- The loops over the axes that are kept. -/
def keptMoves (slice : Region) : List (Int × Int) :=
  nest ((ReduceInfo.compute slice).normalIndex.map (loopAt slice))

/-- They visit no cell of the output twice. -/
def KeptOnce (slice : Region) : Prop := ((keptMoves slice).map Prod.snd).Nodup

/-- The elements that belong to the cells of the output. -/
def groupsOf (slice : Region) (outer : List (Fin 3)) (inner : Fin 3) (source : Int → ℚ) :
    List (Int × List ℚ) :=
  (keptMoves slice).map fun keptMove =>
    (slice.dst.offset + keptMove.2, (nest (outer.map (loopAt slice))).flatMap fun outerMove =>
        (List.range (slice.size inner).toNat).map fun (x : Nat) =>
          source (slice.src.offset + keptMove.1 + outerMove.1 + slice.src.stride inner * x))

theorem termsOf_groupsOf (isReduced : (ReduceInfo.compute slice).reduceIndex = outer ++ [inner])
    (source : Int → ℚ) :
    (termsOf (groupsOf slice outer inner source)).Perm
      (slice.moves.map fun move => (move.2, source move.1)) := by
  refine List.Perm.trans (List.Perm.of_eq ?_) ((moves_perm isReduced).map _).symm
  simp only [termsOf, groupsOf, keptMoves, flatMap_map, map_flatMap, map_map]
  rfl

theorem nodup_groupsOf (source : Int → ℚ) :
    ((groupsOf slice outer inner source).map Prod.fst).Nodup ↔ KeptOnce slice := by
  rw [groupsOf, map_map, KeptOnce]
  have isShift :
      ((keptMoves slice).map fun keptMove => slice.dst.offset + keptMove.2) =
        ((keptMoves slice).map Prod.snd).map (slice.dst.offset + ·) := by
    rw [map_map]
    rfl
  exact (iff_of_eq (congrArg List.Nodup isShift)).trans
    (nodup_map_iff (add_right_injective slice.dst.offset))

theorem nest_ne_nil {axes : List (Fin 3)} (positive : ∀ axis ∈ axes, 0 < slice.size axis) :
    nest (axes.map (loopAt slice)) ≠ [] := by
  induction axes with
  | nil => exact cons_ne_nil _ _
  | cons axis axes ih =>
    have size := positive axis mem_cons_self
    have behind := ih fun other isOther => positive other (mem_cons_of_mem _ isOther)
    rw [map_cons, nest, Ne, flatMap_eq_nil_iff]
    intro never
    refine behind (map_eq_nil_iff.mp (never 0 (mem_range.mpr ?_)))
    show 0 < (slice.size axis).toNat
    omega

/-- What is stored is right if the loops over kept axes visit no cell twice, and only then. -/
theorem storeAll_groupsOf (isReduced : (ReduceInfo.compute slice).reduceIndex = outer ++ [inner]) :
    (∀ source target : Int → ℚ, storeAll (sumsOf (groupsOf slice outer inner source)) target =
          sumAll (slice.moves.map fun move => (move.2, source move.1)) target) ↔
      KeptOnce slice := by
  rcases compute_spec slice with ⟨-, reduced, -⟩
  rw [isReduced] at reduced
  have outerSome := nest_ne_nil fun axis isAxis =>
    Int.lt_trans Int.zero_lt_one (reduced axis (mem_append_left [inner] isAxis)).1
  have innerSome := (reduced inner (mem_append_cons_self)).1
  have some (source : Int → ℚ) : ∀ group ∈ groupsOf slice outer inner source, group.2 ≠ [] := by
    intro group isGroup
    rcases mem_map.mp isGroup with ⟨keptMove, -, rfl⟩
    rw [Ne, flatMap_eq_nil_iff]
    intro never
    rcases exists_mem_of_ne_nil _ outerSome with ⟨outerMove, isOuter⟩
    have empty := map_eq_nil_iff.mp (never outerMove isOuter)
    rw [range_eq_nil] at empty
    omega
  constructor
  · intro stores
    have size : 0 < (nest (outer.map (loopAt slice))).length * (slice.size inner).toNat :=
      Nat.mul_pos (length_pos_of_ne_nil outerSome) (by omega)
    have sums : ∀ group ∈ groupsOf slice outer inner fun _ => 1, group.2.sum =
          (((nest (outer.map (loopAt slice))).length * (slice.size inner).toNat : Nat) : ℚ) := by
      intro group isGroup
      rcases mem_map.mp isGroup with ⟨keptMove, -, rfl⟩
      refine (sum_eq_card_nsmul _ 1 fun value isIn => ?_).trans ?_
      · rcases mem_flatMap.mp isIn with ⟨outerMove, -, isIn⟩
        rcases mem_map.mp isIn with ⟨x, -, rfl⟩
        rfl
      · simp [length_flatMap, map_const']
    have single (count : Nat) (same : count •
              (((nest (outer.map (loopAt slice))).length * (slice.size inner).toNat : Nat) : ℚ) =
            (((nest (outer.map (loopAt slice))).length * (slice.size inner).toNat : Nat) : ℚ)) :
        count = 1 := by
      rw [nsmul_eq_mul, ← Nat.cast_mul, Nat.cast_inj] at same
      exact Nat.eq_of_mul_eq_mul_right size (same.trans (Nat.one_mul _).symm)
    have same := (stores (fun _ => 1) fun _ => 0).trans
        (sumAll_perm (termsOf_groupsOf isReduced fun _ => 1) _).symm
    exact (nodup_groupsOf _).mp (nodup_of_storeAll (some _) sums single same)
  · intro once source target
    rw [storeAll_sumsOf (some source) ((nodup_groupsOf source).mpr once),
      sumAll_perm (termsOf_groupsOf isReduced source)]

/-! ## The buffer -/

theorem reads_iff
    (isReduced : (ReduceInfo.compute slice).reduceIndex = outer ++ [inner]) {cell : Int} :
    slice.Reads cell ↔ ∃ keptMove ∈ keptMoves slice, ∃ outerMove ∈ nest (outer.map (loopAt slice)),
        ∃ x : Nat, x < (slice.size inner).toNat ∧
          slice.src.offset + keptMove.1 + outerMove.1 + slice.src.stride inner * x = cell := by
  simp only [Region.Reads, ← Region.mem_moves, (moves_perm isReduced).mem_iff,
    mem_flatMap, mem_map, mem_range, Prod.mk.injEq]
  constructor
  · rintro ⟨target, keptMove, isKept, outerMove, isOuter, x, less, isCell, -⟩
    exact ⟨keptMove, isKept, outerMove, isOuter, x, less, isCell⟩
  · rintro ⟨keptMove, isKept, outerMove, isOuter, x, less, isCell⟩
    exact ⟨_, keptMove, isKept, outerMove, isOuter, x, less, isCell, rfl⟩

/-- The buffer is indexed as it was filled. -/
def IsIndexed (slice : Region) (bytes : Nat) (outer : List (Fin 3)) (inner : Fin 3) : Prop :=
  bytes = 2 → slice.src.stride inner = if outer = [] then 1 else 0

theorem readAt_of_isIndexed {bytes : Nat} (isIndexed : IsIndexed slice bytes outer inner)
    (srcY : Int) {x : Nat} (less : x < (slice.size inner).toNat) :
    let term :=
      readAt bytes srcY (if outer = [] then (slice.size inner).toNat else 1)
        (slice.src.stride inner * x)
    (∀ source garbage : Int → ℚ,
        term.value source garbage = source (srcY + slice.src.stride inner * x)) ∧
      (∀ cell ∈ term.reads, ∃ x' : Nat, x' < (slice.size inner).toNat ∧
        srcY + slice.src.stride inner * x' = cell) ∧
      term.Inside := by
  intro term
  by_cases isHalf : bytes = 2
  · have isStride := isIndexed isHalf
    by_cases isOne : outer = []
    · have isTerm : term = .buffer srcY (slice.size inner).toNat x := by
        simp only [term, readAt, if_pos isHalf, if_pos isOne, isStride, one_mul]
      rw [isTerm, isStride, if_pos isOne]
      refine ⟨fun source garbage => ?_, fun cell isIn => ?_, ?_⟩
      · rw [one_mul]
        exact if_pos ⟨Int.natCast_nonneg x, Int.ofNat_lt.mpr less⟩
      · rcases mem_map.mp isIn with ⟨k, isK, rfl⟩
        exact ⟨k, mem_range.mp isK, by rw [one_mul]⟩
      · exact ⟨Int.natCast_nonneg x, Int.ofNat_lt.mpr less⟩
    · have isTerm : term = .buffer srcY 1 0 := by
        simp only [term, readAt, if_pos isHalf, if_neg isOne, isStride, zero_mul]
      rw [isTerm, isStride, if_neg isOne]
      refine ⟨fun source garbage => ?_, fun cell isIn => ?_, ?_⟩
      · rw [zero_mul]
        rfl
      · rw [mem_singleton.mp isIn]
        exact ⟨x, less, by simp⟩
      · exact ⟨le_refl _, Int.zero_lt_one⟩
  · have isTerm : term = .source (srcY + slice.src.stride inner * x) := if_neg isHalf
    rw [isTerm]
    refine ⟨fun source garbage => rfl, fun cell isIn => ?_, trivial⟩
    rw [mem_singleton.mp isIn]
    exact ⟨x, less, rfl⟩

theorem forall_terms {bytes size : Nat} {property : Term → Prop} :
    (∀ summer ∈ summersOf slice bytes (ReduceInfo.compute slice).normalIndex outer inner size
          slice.src.offset slice.dst.offset,
        ∀ term ∈ summer.terms, property term) ↔
      ∀ keptMove ∈ keptMoves slice, ∀ outerMove ∈ nest (outer.map (loopAt slice)),
        ∀ x : Nat, x < (slice.size inner).toNat → property
            (readAt bytes (slice.src.offset + keptMove.1 + outerMove.1) size
              (slice.src.stride inner * x)) := by
  constructor
  · intro all keptMove isKept outerMove isOuter x less
    exact all _ (mem_map_of_mem isKept) _ (mem_flatMap.mpr
          ⟨outerMove, isOuter, mem_map_of_mem (mem_range.mpr less)⟩)
  · intro all summer isSummer term isTerm
    rcases mem_map.mp isSummer with ⟨keptMove, isKept, rfl⟩
    rcases mem_flatMap.mp isTerm with ⟨outerMove, isOuter, isTerm⟩
    rcases mem_map.mp isTerm with ⟨x, less, rfl⟩
    exact all keptMove isKept outerMove isOuter x (mem_range.mp less)

/-- If nothing else is read, the buffer is indexed as it was filled. -/
theorem isIndexed_of_sums (isReduced : (ReduceInfo.compute slice).reduceIndex = outer ++ [inner])
    (some : keptMoves slice ≠ []) {bytes : Nat}
    (sums : Sums slice (summersOf slice bytes (ReduceInfo.compute slice).normalIndex outer inner
          (if outer = [] then (slice.size inner).toNat else 1) slice.src.offset slice.dst.offset)) :
    IsIndexed slice bytes outer inner := by
  rintro rfl
  rcases compute_spec slice with ⟨-, reduced, -⟩
  rw [isReduced] at reduced
  have long := (reduced inner (mem_append_cons_self)).1
  have outerSome := nest_ne_nil fun axis isAxis =>
    Int.lt_trans Int.zero_lt_one (reduced axis (mem_append_left [inner] isAxis)).1
  have isTerm {keptMove outerMove : Int × Int} (isKept : keptMove ∈ keptMoves slice)
      (isOuter : outerMove ∈ nest (outer.map (loopAt slice))) {x : Nat}
      (less : x < (slice.size inner).toNat) :
      (∀ i < if outer = [] then (slice.size inner).toNat else 1,
          slice.Reads (slice.src.offset + keptMove.1 + outerMove.1 + (i : Nat))) ∧
        0 ≤ slice.src.stride inner * x ∧ slice.src.stride inner * x <
            (if outer = [] then (slice.size inner).toNat else 1 : Nat) := by
    have reads := forall_terms.mp sums.reads keptMove isKept outerMove isOuter x less
    refine ⟨fun i isI => reads _ ?_, ?_⟩
    · exact mem_map.mpr ⟨i, mem_range.mpr isI, rfl⟩
    · exact forall_terms.mp sums.inside keptMove isKept outerMove isOuter x less
  rcases exists_mem_of_ne_nil _ some with ⟨keptMove, isKept⟩
  rcases exists_mem_of_ne_nil _ outerSome with ⟨outerMove, isOuter⟩
  have second := (isTerm isKept isOuter (by omega : 1 < (slice.size inner).toNat)).2
  rw [Nat.cast_one, mul_one] at second
  by_cases isOne : outer = []
  · subst isOne
    rw [if_pos rfl] at second ⊢
    have last := (isTerm isKept isOuter
      (by omega : (slice.size inner).toNat - 1 < (slice.size inner).toNat)).2.2
    rw [if_pos rfl] at last
    have atMost : slice.src.stride inner ≤ 1 := by
      by_contra more
      have isLast : (((slice.size inner).toNat - 1 : Nat) : Int) = slice.size inner - 1 := by
        omega
      rw [isLast, Int.toNat_of_nonneg (by omega)] at last
      nlinarith
    -- with stride zero, what is converted behind the last element does not belong to it
    have notZero : slice.src.stride inner ≠ 0 := by
      intro isZero
      rcases Finset.exists_max_image (keptMoves slice).toFinset Prod.fst
          ⟨keptMove, mem_toFinset.mpr isKept⟩ with
        ⟨maximal, isMaximal, most⟩
      rcases (reads_iff isReduced).mp ((isTerm (mem_toFinset.mp isMaximal) isOuter
            (by omega : 0 < (slice.size inner).toNat)).1 1 (by rw [if_pos rfl]; omega)) with
        ⟨other, isOther, otherOuter, isOtherOuter, x, -, isCell⟩
      have atMaximal := most other (mem_toFinset.mpr isOther)
      rw [mem_singleton.mp isOuter, mem_singleton.mp isOtherOuter, isZero] at isCell
      omega
    omega
  · rw [if_neg isOne] at second ⊢
    omega

theorem sums_iff
    (isReduced : (ReduceInfo.compute slice).reduceIndex = outer ++ [inner]) (bytes : Nat) :
    Sums slice (summersOf slice bytes (ReduceInfo.compute slice).normalIndex outer inner
          (if outer = [] then (slice.size inner).toNat else 1) slice.src.offset slice.dst.offset) ↔
      KeptOnce slice ∧ (keptMoves slice ≠ [] → IsIndexed slice bytes outer inner) := by
  have stored (isIndexed : keptMoves slice ≠ [] → IsIndexed slice bytes outer inner)
      (source garbage target : Int → ℚ) :
      store (summersOf slice bytes (ReduceInfo.compute slice).normalIndex outer inner
            (if outer = [] then (slice.size inner).toNat else 1) slice.src.offset
            slice.dst.offset)
          source garbage target =
        storeAll (sumsOf (groupsOf slice outer inner source)) target := by
    rw [store, summersOf, groupsOf, sumsOf, map_map, map_map]
    refine congrArg (storeAll · target) (map_congr_left fun keptMove isKept => ?_)
    refine congrArg (fun terms : List ℚ => (slice.dst.offset + keptMove.2, terms.sum)) ?_
    rw [map_flatMap]
    refine flatMap_congr fun outerMove _ => ?_
    rw [map_map]
    refine map_congr_left fun x isX => ?_
    exact (readAt_of_isIndexed (isIndexed (ne_nil_of_mem isKept)) _
        (mem_range.mp isX)).1 source garbage
  constructor
  · intro sums
    have isIndexed := fun some => isIndexed_of_sums isReduced some sums
    refine ⟨(storeAll_groupsOf isReduced).mp fun source target => ?_, isIndexed⟩
    rw [← stored isIndexed source source target]
    exact sums.stores source source target
  · rintro ⟨once, isIndexed⟩
    refine ⟨fun source garbage target => ?_, forall_terms.mpr ?_, forall_terms.mpr ?_⟩
    · rw [stored isIndexed]
      exact (storeAll_groupsOf isReduced).mpr once source target
    · intro keptMove isKept outerMove isOuter x less cell isCell
      rcases (readAt_of_isIndexed (isIndexed (ne_nil_of_mem isKept)) _ less).2.1 cell isCell with
        ⟨x', less', rfl⟩
      exact (reads_iff isReduced).mpr ⟨keptMove, isKept, outerMove, isOuter, x', less', rfl⟩
    · intro keptMove isKept outerMove isOuter x less
      exact (readAt_of_isIndexed (isIndexed (ne_nil_of_mem isKept)) _ less).2.2

end Reducing

/-! ## All regions -/

/--
The region is empty, or axes are reduced, the others visit no cell of the output
twice, and the innermost reduced axis suits the buffer.
-/
def SumsRight (slice : Region) (bytes : Nat) : Prop :=
  (∃ axis, slice.size axis = 0) ∨ KeptOnce slice ∧
      ∃ inner, (ReduceInfo.compute slice).reduceIndex.getLast? = some inner ∧ (bytes = 2 →
          slice.src.stride inner =
            if (ReduceInfo.compute slice).reduceNum = 1 then 1 else 0)

theorem moves_eq_nil_iff {slice : Region} (sizes : ∀ axis, 0 ≤ slice.size axis) :
    slice.moves = [] ↔ ∃ axis, slice.size axis = 0 := by
  rw [Region.moves, map_eq_nil_iff, eq_nil_iff_forall_not_mem]
  constructor
  · intro never
    by_contra some
    refine never 0 (Region.mem_indices.mpr fun axis => ⟨le_refl _, ?_⟩)
    exact lt_of_le_of_ne (sizes axis) fun isZero => some ⟨axis, isZero.symm⟩
  · rintro ⟨axis, isZero⟩ index isIn
    have bounds := Region.mem_indices.mp isIn axis
    omega

theorem sums_nil_iff (slice : Region) : Sums slice [] ↔ slice.moves = [] := by
  constructor
  · intro sums
    by_contra some
    rcases exists_mem_of_ne_nil _ some with ⟨move, isMove⟩
    have isZero := congrFun (sums.stores (fun _ => 1) (fun _ => 0) fun _ => 0) move.2
    have isIn : (move.2, (1 : ℚ)) ∈ slice.moves.map fun move => (move.2, 1) :=
      mem_map.mpr ⟨move, isMove, rfl⟩
    rw [sumAll, if_pos (mem_map.mpr ⟨_, isIn, rfl⟩)] at isZero
    rw [sum_eq_card_nsmul _ 1 fun value isValue => ?_, nsmul_eq_mul, mul_one] at isZero
    · have isEmpty := length_eq_zero_iff.mp (Nat.cast_eq_zero.mp isZero.symm)
      have isTerm : (move.2, (1 : ℚ)) ∈ (slice.moves.map fun move => (move.2, (1 : ℚ))).filter
          fun term => decide (term.1 = move.2) :=
        mem_filter.mpr ⟨isIn, decide_eq_true rfl⟩
      have isHere := mem_map_of_mem (f := Prod.snd) isTerm
      rw [isEmpty] at isHere
      exact absurd isHere not_mem_nil
    · rcases mem_map.mp isValue with ⟨term, isTerm, rfl⟩
      rcases mem_map.mp (mem_filter.mp isTerm).1 with ⟨_, -, rfl⟩
      rfl
  · intro isEmpty
    refine ⟨fun source garbage target => ?_, (fun _ isIn => absurd isIn not_mem_nil),
      (fun _ isIn => absurd isIn not_mem_nil)⟩
    rw [isEmpty]
    rfl

/-- Both rows of two elements are summed, from a source with a stride of two. -/
def spreadRows : Region :=
  { src := { stride := ![8, 4, 2] }
    dst := { stride := ![2, 1, 0] }
    size := ![1, 2, 2] }

end Mnn.Cpu.CPURaster
