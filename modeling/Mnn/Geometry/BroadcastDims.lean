import Mnn.Geometry.Broadcast

/-!
# Shapes that are broadcast

The shape is merged input by input.  What has been merged is the broadcast of the shapes
so far, or two of them do not fit.
-/

variable {shape result : List Nat} {inputs : List (List Nat)}

namespace Mnn.Geometry.Broadcast

open Mnn.Core.Raster
open List

theorem mergeDim_spec {outputDim dim1 merged : Nat}
    (isMerged : mergeDim outputDim dim1 = some merged) :
    (dim1 = 1 ∧ merged = outputDim) ∨ (outputDim = 1 ∧ merged = dim1) ∨
      (dim1 = outputDim ∧ merged = outputDim) := by
  unfold mergeDim at isMerged
  split at isMerged
  · nomatch isMerged
  · split at isMerged
    · next same => exact Or.inr (Or.inr ⟨same, (Option.some.inj isMerged).symm⟩)
    · split at isMerged
      · next isOne =>
          obtain rfl := Option.some.inj isMerged
          rcases isOne.2 with rfl | rfl
          · exact Or.inl ⟨rfl, mul_one _⟩
          · exact Or.inr (Or.inl ⟨rfl, one_mul _⟩)
      · nomatch isMerged

theorem mergeDim_none {outputDim dim1 : Nat} (fails : mergeDim outputDim dim1 = none) :
    dim1 ≠ outputDim ∧ dim1 ≠ 1 ∧ outputDim ≠ 1 := by
  unfold mergeDim at fails
  grind

theorem mergeDim_one (outputDim : Nat) : mergeDim outputDim 1 = some outputDim := by
  unfold mergeDim
  grind

/-! ## All axes -/

theorem fromEnd_cons (length : Nat) (shape : List Nat) (axis : Nat) :
    fromEnd (length :: shape) axis =
      if axis = shape.length then length else fromEnd shape axis := by
  rw [fromEnd, fromEnd, reverse_cons, getD_eq_getElem?_getD,
    getElem?_append, length_reverse, getD_eq_getElem?_getD]
  split
  · next less => rw [if_neg (ne_of_lt less)]
  · next notLess =>
      split
      · next same => simp [same]
      · next other =>
          have isBehind : ¬ axis < shape.reverse.length := by
            rwa [length_reverse]
          have isOut : ¬ axis - shape.length < [length].length := by
            simp only [length_singleton]
            omega
          rw [getElem?_eq_none (Nat.le_of_not_lt isOut),
            getElem?_eq_none (Nat.le_of_not_lt isBehind)]

theorem fromEnd_of_le {axis : Nat} (le : shape.length ≤ axis) :
    fromEnd shape axis = 1 := by
  rw [fromEnd, getD_eq_getElem?_getD, getElem?_eq_none (by rwa [length_reverse])]
  rfl

/-- What merging does on each axis. -/
structure Merges (outputDims input1 merged : List Nat) : Prop where
  sameLength : merged.length = outputDims.length
  each :
    ∀ axis, mergeDim (fromEnd outputDims axis) (fromEnd input1 axis) =
        some (fromEnd merged axis)

variable {outputDims input1 : List Nat}

theorem mapM_mergeDim (sameLength : outputDims.length = input1.length) :
    (∀ merged, ((outputDims.zip input1).mapM fun dims => mergeDim dims.1 dims.2) =
            some merged →
          Merges outputDims input1 merged) ∧
      (((outputDims.zip input1).mapM fun dims => mergeDim dims.1 dims.2) = none →
        ∃ axis, mergeDim (fromEnd outputDims axis) (fromEnd input1 axis) = none) := by
  induction outputDims generalizing input1 with
  | nil =>
    cases input1 with
    | nil =>
      refine ⟨fun merged isMerged => ?_, nofun⟩
      obtain rfl := Option.some.inj isMerged
      exact ⟨rfl, fun axis => mergeDim_one _⟩
    | cons dim1 input1 => nomatch sameLength
  | cons outputDim outputDims ih =>
    cases input1 with
    | nil => nomatch sameLength
    | cons dim1 input1 =>
      have sameRest := Nat.succ.inj sameLength
      have later := ih sameRest
      have isFirst : fromEnd (outputDim :: outputDims) outputDims.length = outputDim := by
        rw [fromEnd_cons, if_pos rfl]
      have isFirst' : fromEnd (dim1 :: input1) outputDims.length = dim1 := by
        rw [fromEnd_cons, if_pos sameRest]
      rw [zip_cons_cons, mapM_cons]
      cases isHead : mergeDim outputDim dim1 with
      | none =>
        refine ⟨fun merged impossible => ?_, fun _ => ⟨outputDims.length, ?_⟩⟩
        · nomatch impossible
        · rw [isFirst, isFirst', isHead]
      | some head =>
        cases isRest : (outputDims.zip input1).mapM fun dims => mergeDim dims.1 dims.2 with
        | none =>
          refine ⟨fun merged impossible => (nomatch impossible), fun _ => ?_⟩
          rcases later.2 isRest with ⟨axis, fails⟩
          refine ⟨axis, ?_⟩
          have less : axis < outputDims.length := by
            by_contra notLess
            have le := Nat.le_of_not_lt notLess
            rw [fromEnd_of_le le, fromEnd_of_le (sameRest ▸ le), mergeDim_one] at fails
            nomatch fails
          rw [fromEnd_cons, fromEnd_cons, ← sameRest,
            if_neg (ne_of_lt less), if_neg (ne_of_lt less)]
          exact fails
        | some rest =>
          refine ⟨fun merged isMerged => ?_, nofun⟩
          obtain rfl := Option.some.inj isMerged
          have merges := later.1 rest isRest
          refine ⟨congrArg Nat.succ merges.sameLength, fun axis => ?_⟩
          rw [fromEnd_cons, fromEnd_cons, fromEnd_cons, ← sameRest, merges.sameLength]
          split
          · exact isHead
          · exact merges.each axis

theorem fromEnd_append (lead shape : List Nat) (axis : Nat) :
    fromEnd (lead ++ shape) axis =
      if axis < shape.length then fromEnd shape axis
      else fromEnd lead (axis - shape.length) := by
  simp only [fromEnd, reverse_append, getD_eq_getElem?_getD, getElem?_append, length_reverse]
  split <;> rfl

theorem mergeDims_spec (atMost : input1.length ≤ outputDims.length) :
    (∀ merged, mergeDims outputDims input1 = some merged → Merges outputDims input1 merged) ∧
      (mergeDims outputDims input1 = none →
        ∃ axis, mergeDim (fromEnd outputDims axis) (fromEnd input1 axis) = none) := by
  have isWhole := take_append_drop (outputDims.length - input1.length) outputDims
  have sameLength :
      (outputDims.drop (outputDims.length - input1.length)).length =
        input1.length := by
    rw [length_drop]
    omega
  have last := mapM_mergeDim sameLength
  have isMerge :
      mergeDims outputDims input1 =
        (((outputDims.drop (outputDims.length - input1.length)).zip input1).mapM
              fun dims => mergeDim dims.1 dims.2).map
          (outputDims.take (outputDims.length - input1.length) ++ ·) :=
    rfl
  rw [isMerge]
  clear isMerge
  generalize outputDims.take (outputDims.length - input1.length) = lead at *
  generalize outputDims.drop (outputDims.length - input1.length) = rest at *
  subst isWhole
  constructor
  · intro merged isMerged
    rcases Option.map_eq_some_iff.mp isMerged with ⟨tail, isTail, rfl⟩
    have merges := last.1 tail isTail
    refine ⟨?_, fun axis => ?_⟩
    · rw [length_append, length_append, merges.sameLength]
    · rw [fromEnd_append, fromEnd_append, merges.sameLength]
      split
      · exact merges.each axis
      · next notLess =>
          rw [@fromEnd_of_le input1 _ (by omega)]
          exact mergeDim_one _
  · intro fails
    rw [Option.map_eq_none_iff] at fails
    rcases last.2 fails with ⟨axis, noMerge⟩
    refine ⟨axis, ?_⟩
    rw [fromEnd_append]
    split
    · exact noMerge
    · next notLess =>
        rw [@fromEnd_of_le input1 _ (by omega), mergeDim_one] at noMerge
        nomatch noMerge

/-! ## All inputs -/

variable {shapes : List (List Nat)}

theorem IsBroadcast.broadcastable
    (isBroadcast : IsBroadcast shapes result) : Broadcastable shapes := by
  intro first isFirst second isSecond axis
  rcases isBroadcast.fits first isFirst axis with isOne | same
  · exact Or.inl isOne
  · rcases isBroadcast.fits second isSecond axis with isOne | same'
    · exact Or.inr (Or.inl isOne)
    · exact Or.inr (Or.inr (same.trans same'.symm))

theorem IsBroadcast.unique {other : List Nat}
    (isBroadcast : IsBroadcast shapes result) (isOther : IsBroadcast shapes other) :
    result = other := by
  have sameLength : result.length = other.length := by
    rcases isBroadcast.longest with ⟨shape, isShape, isLength⟩
    rcases isOther.longest with ⟨shape', isShape', isLength'⟩
    have atMost := isOther.atMost shape isShape
    have atMost' := isBroadcast.atMost shape' isShape'
    omega
  have sameEnd (axis : Nat) : fromEnd result axis = fromEnd other axis := by
    rcases isBroadcast.attained axis with ⟨shape, isShape, isAttained⟩
    rcases isOther.attained axis with ⟨shape', isShape', isAttained'⟩
    rcases isOther.fits shape isShape axis with isOne | same
    · rcases isBroadcast.fits shape' isShape' axis with isOne' | same'
      · rw [← isAttained, ← isAttained', isOne, isOne']
      · exact same'.symm.trans isAttained'
    · exact isAttained.symm.trans same
  have sameReverse : result.reverse = other.reverse := by
    refine ext_getElem? fun axis => ?_
    have isSame := sameEnd axis
    rw [fromEnd, fromEnd, getD_eq_getElem?_getD, getD_eq_getElem?_getD] at isSame
    rcases lt_or_ge axis result.reverse.length with less | ge
    · have less' : axis < other.reverse.length := by
        rwa [length_reverse, ← sameLength, ← length_reverse]
      rw [getElem?_eq_getElem less, getElem?_eq_getElem less'] at isSame ⊢
      exact congrArg some isSame
    · have ge' : other.reverse.length ≤ axis := by
        rwa [length_reverse, ← sameLength, ← length_reverse]
      rw [getElem?_eq_none ge, getElem?_eq_none ge']
  exact reverse_injective sameReverse

theorem IsBroadcast.merge (isBroadcast : IsBroadcast shapes outputDims)
    (atMost : input1.length ≤ outputDims.length) :
    (∀ merged, mergeDims outputDims input1 = some merged → IsBroadcast (input1 :: shapes) merged) ∧
      (mergeDims outputDims input1 = none → ¬ Broadcastable (input1 :: shapes)) := by
  have spec := mergeDims_spec atMost
  constructor
  · intro merged isMerged
    have merges := spec.1 merged isMerged
    refine { longest := ?_, atMost := ?_, fits := ?_, attained := fun axis => ?_ }
    · rcases isBroadcast.longest with ⟨shape, isShape, isLength⟩
      exact ⟨shape, mem_cons_of_mem _ isShape, isLength.trans merges.sameLength.symm⟩
    · rw [merges.sameLength]
      exact forall_mem_cons.mpr ⟨atMost, isBroadcast.atMost⟩
    · refine forall_mem_cons.mpr ⟨fun axis => ?_, fun shape isShape axis => ?_⟩
      · rcases mergeDim_spec (merges.each axis) with
          ⟨isOne, -⟩ | ⟨-, same⟩ | ⟨same, same'⟩
        · exact Or.inl isOne
        · exact Or.inr same.symm
        · exact Or.inr (same.trans same'.symm)
      · have fits := isBroadcast.fits shape isShape axis
        rcases mergeDim_spec (merges.each axis) with
          ⟨-, same⟩ | ⟨isOne, -⟩ | ⟨-, same⟩
        · rw [same]
          exact fits
        · rw [isOne] at fits
          exact Or.inl (fits.elim id id)
        · rw [same]
          exact fits
    · rcases isBroadcast.attained axis with ⟨shape, isShape, isAttained⟩
      rcases mergeDim_spec (merges.each axis) with ⟨-, same⟩ | ⟨-, same⟩ | ⟨-, same⟩
      · exact ⟨shape, mem_cons_of_mem _ isShape, isAttained.trans same.symm⟩
      · exact ⟨input1, mem_cons_self, same.symm⟩
      · exact ⟨shape, mem_cons_of_mem _ isShape, isAttained.trans same.symm⟩
  · intro fails broadcastable
    rcases spec.2 fails with ⟨axis, noMerge⟩
    rcases mergeDim_none noMerge with ⟨notSame, notOne, notOne'⟩
    rcases isBroadcast.attained axis with ⟨shape, isShape, isAttained⟩
    rw [← isAttained] at notSame notOne'
    rcases broadcastable input1 mem_cons_self shape (mem_cons_of_mem _ isShape) axis with
      isOne | isOne | same
    · exact notOne isOne
    · exact notOne' isOne
    · exact notSame same

theorem maxIndex_spec (first : List Nat) (others : List (List Nat)) :
    maxIndex (first :: others) < (first :: others).length ∧ ∀ index < (first :: others).length,
        ((first :: others).getD index []).length ≤
          ((first :: others).getD (maxIndex (first :: others)) []).length := by
  generalize isInputs : first :: others = inputs
  have notEmpty : 0 < inputs.length := by
    rw [← isInputs]
    exact Nat.zero_lt_succ _
  have general (indexes : List Nat) (found : Nat × Nat) (seen : Nat → Prop)
      (areIn : ∀ index ∈ indexes, index < inputs.length)
      (isIn : found.2 < inputs.length)
      (isLength : found.1 = (inputs.getD found.2 []).length)
      (isMax : ∀ index, seen index → (inputs.getD index []).length ≤ found.1) :
      let final :=
        indexes.foldl (fun (found : Nat × Nat) index =>
            let dimensions := (inputs.getD index []).length
            if dimensions > found.1 then (dimensions, index) else found)
          found
      final.2 < inputs.length ∧ final.1 = (inputs.getD final.2 []).length ∧
        ∀ index, seen index ∨ index ∈ indexes → (inputs.getD index []).length ≤ final.1 := by
    induction indexes generalizing found seen with
    | nil =>
      refine ⟨isIn, isLength, fun index isSeen => isMax index ?_⟩
      exact isSeen.resolve_right not_mem_nil
    | cons index indexes ih =>
      have areIn' := forall_mem_cons.mp areIn
      rw [foldl_cons]
      have later (next : Nat × Nat) := ih next (fun i => seen i ∨ i = index) areIn'.2
      by_cases isLonger : (inputs.getD index []).length > found.1
      · simp only [isLonger, if_true]
        have spec := later ((inputs.getD index []).length, index) areIn'.1 rfl fun i isSeen => by
            rcases isSeen with isSeen | rfl
            · exact le_trans (isMax i isSeen) (le_of_lt isLonger)
            · exact le_refl _
        refine ⟨spec.1, spec.2.1, fun i isSeen => spec.2.2 i ?_⟩
        rw [mem_cons] at isSeen
        tauto
      · simp only [isLonger, if_false]
        have spec := later found isIn isLength fun i isSeen => by
            rcases isSeen with isSeen | rfl
            · exact isMax i isSeen
            · exact Nat.le_of_not_lt isLonger
        refine ⟨spec.1, spec.2.1, fun i isSeen => spec.2.2 i ?_⟩
        rw [mem_cons] at isSeen
        tauto
  have spec := general (List.range inputs.length).tail ((inputs.getD 0 []).length, 0) (· = 0)
      (fun index isIn => mem_range.mp (mem_of_mem_tail isIn)) notEmpty rfl
      (by rintro index rfl; exact le_refl _)
  refine ⟨spec.1, fun index less => ?_⟩
  have isBound := spec.2.2 index ?_
  · rw [spec.2.1] at isBound
    exact isBound
  · rcases Nat.eq_zero_or_pos index with isZero | isPositive
    · exact Or.inl isZero
    · right
      rcases Nat.exists_eq_add_of_lt notEmpty with ⟨more, isLength⟩
      rw [isLength, zero_add, range_succ_eq_map, tail_cons, mem_map]
      exact ⟨index - 1, mem_range.mpr (by omega), by omega⟩

theorem foldlM_mergeDims (max : Nat) (indexes : List Nat)
    (shapes : List (List Nat)) (outputDims : List Nat)
    (areInputs : ∀ index ∈ indexes, inputs.getD index [] ∈ inputs)
    (areShapes : ∀ shape ∈ shapes, shape ∈ inputs) (hasMax : inputs.getD max [] ∈ shapes)
    (atMost : ∀ shape ∈ inputs, shape.length ≤ outputDims.length)
    (isBroadcast : IsBroadcast shapes outputDims) :
    (∀ result, indexes.foldlM (fun outputDims index =>
              if index = max then
                some outputDims
              else
                mergeDims outputDims (inputs.getD index []))
            outputDims = some result →
          ∃ all, IsBroadcast all result ∧ (∀ shape ∈ all, shape ∈ inputs) ∧
            ∀ index ∈ indexes, inputs.getD index [] ∈ all) ∧
      (indexes.foldlM (fun outputDims index =>
            if index = max then
              some outputDims
            else
              mergeDims outputDims (inputs.getD index []))
          outputDims = none →
        ¬ Broadcastable inputs) := by
  -- what was merged is carried along, so that the last list holds all of it
  suffices general : (∀ result, indexes.foldlM (fun outputDims index =>
                if index = max then
                  some outputDims
                else
                  mergeDims outputDims (inputs.getD index []))
              outputDims = some result →
            ∃ all, IsBroadcast all result ∧ (∀ shape ∈ all, shape ∈ inputs) ∧
              (∀ shape ∈ shapes, shape ∈ all) ∧ ∀ index ∈ indexes, inputs.getD index [] ∈ all) ∧
        (indexes.foldlM (fun outputDims index =>
              if index = max then
                some outputDims
              else
                mergeDims outputDims (inputs.getD index []))
            outputDims = none →
          ¬ Broadcastable inputs) from
    ⟨fun result isResult =>
        (general.1 result isResult).imp fun all spec =>
          ⟨spec.1, spec.2.1, spec.2.2.2⟩,
      general.2⟩
  induction indexes generalizing shapes outputDims with
  | nil =>
    refine ⟨fun result isResult => ?_, nofun⟩
    obtain rfl := Option.some.inj isResult
    exact ⟨shapes, isBroadcast, areShapes, fun shape isIn => isIn, fun index isIn => nomatch isIn⟩
  | cons index indexes ih =>
    rw [forall_mem_cons] at areInputs
    rw [foldlM_cons]
    by_cases isMax : index = max
    · rw [if_pos isMax]
      have later := ih shapes outputDims areInputs.2 areShapes hasMax atMost isBroadcast
      refine ⟨fun result isResult => ?_, later.2⟩
      rcases later.1 result isResult with ⟨all, isAll, inside, grown, merged⟩
      refine ⟨all, isAll, inside, grown, forall_mem_cons.mpr ⟨?_, merged⟩⟩
      rw [isMax]
      exact grown _ hasMax
    · rw [if_neg isMax]
      have merge := isBroadcast.merge (atMost (inputs.getD index []) areInputs.1)
      have areShapes' : ∀ shape ∈ inputs.getD index [] :: shapes, shape ∈ inputs :=
        forall_mem_cons.mpr ⟨areInputs.1, areShapes⟩
      cases isMerged : mergeDims outputDims (inputs.getD index []) with
      | none =>
        refine ⟨fun result impossible => (nomatch impossible), fun _ fits => ?_⟩
        refine merge.2 isMerged fun first isFirst second isSecond => ?_
        exact fits first (areShapes' first isFirst) second (areShapes' second isSecond)
      | some merged =>
        have merges := (mergeDims_spec (atMost (inputs.getD index []) areInputs.1)).1 merged
            isMerged
        have later := ih (inputs.getD index [] :: shapes) merged areInputs.2 areShapes'
            (mem_cons_of_mem _ hasMax)
            (by rw [merges.sameLength]; exact atMost) (merge.1 merged isMerged)
        refine ⟨fun result isResult => ?_, later.2⟩
        rcases later.1 result isResult with ⟨all, isAll, inside, grown, areMerged⟩
        refine ⟨all, isAll, inside, fun shape isIn => grown shape (mem_cons_of_mem _ isIn),
            forall_mem_cons.mpr ⟨grown _ mem_cons_self, areMerged⟩⟩

theorem getD_mem {index : Nat} (less : index < inputs.length) : inputs.getD index [] ∈ inputs := by
  rw [getD_eq_getElem?_getD, getElem?_eq_getElem less]
  exact getElem_mem less

theorem computeBroadCastDims_spec (first : List Nat) (others : List (List Nat)) :
    (∀ result, computeBroadCastDims (first :: others) = some result →
        IsBroadcast (first :: others) result) ∧
      (computeBroadCastDims (first :: others) = none → ¬ Broadcastable (first :: others)) := by
  have isMax := maxIndex_spec first others
  unfold computeBroadCastDims
  generalize first :: others = inputs at *
  have lengths : ∀ shape ∈ inputs, shape.length ≤ (inputs.getD (maxIndex inputs) []).length := by
    intro shape isShape
    rcases getElem_of_mem isShape with ⟨index, less, rfl⟩
    have atMost := isMax.2 index less
    rw [getD_eq_getElem?_getD, getElem?_eq_getElem less] at atMost
    exact atMost
  have starts : IsBroadcast [inputs.getD (maxIndex inputs) []] (inputs.getD (maxIndex inputs) []) :=
    { longest := ⟨_, mem_singleton_self _, rfl⟩
      atMost := fun shape isShape => by rw [mem_singleton.mp isShape]
      fits := fun shape isShape axis => by
        rw [mem_singleton.mp isShape]
        exact Or.inr rfl
      attained := fun axis => ⟨_, mem_singleton_self _, rfl⟩ }
  have spec := foldlM_mergeDims (maxIndex inputs) (List.range inputs.length)
      [inputs.getD (maxIndex inputs) []] (inputs.getD (maxIndex inputs) [])
      (fun index isIn => getD_mem (mem_range.mp isIn))
      (fun shape isShape => by
        rw [mem_singleton.mp isShape]
        exact getD_mem isMax.1)
      (mem_singleton_self _) lengths starts
  refine ⟨fun result isResult => ?_, spec.2⟩
  rcases spec.1 result isResult with ⟨all, isAll, inside, merged⟩
  have same (shape : List Nat) (isShape : shape ∈ inputs) : shape ∈ all := by
    rcases getElem_of_mem isShape with ⟨index, less, rfl⟩
    have isMerged := merged index (mem_range.mpr less)
    rw [getD_eq_getElem?_getD, getElem?_eq_getElem less] at isMerged
    exact isMerged
  refine
    { longest := ?_, atMost := fun shape isShape => isAll.atMost shape (same shape isShape),
      fits := fun shape isShape => isAll.fits shape (same shape isShape),
      attained := fun axis => ?_ }
  · rcases isAll.longest with ⟨shape, isShape, isLength⟩
    exact ⟨shape, inside shape isShape, isLength⟩
  · rcases isAll.attained axis with ⟨shape, isShape, isAttained⟩
    exact ⟨shape, inside shape isShape, isAttained⟩

theorem IsBroadcast.of_same {shapes' : List (List Nat)} (isBroadcast : IsBroadcast shapes result)
    (same : ∀ shape, shape ∈ shapes ↔ shape ∈ shapes') : IsBroadcast shapes' result where
  longest := isBroadcast.longest.imp fun shape => And.imp_left (same shape).mp
  atMost shape isShape := isBroadcast.atMost shape ((same shape).mpr isShape)
  fits shape isShape := isBroadcast.fits shape ((same shape).mpr isShape)
  attained axis := (isBroadcast.attained axis).imp fun shape => And.imp_left (same shape).mp

theorem computeBroadCastDims_eq_some {first : List Nat} {others : List (List Nat)} :
    computeBroadCastDims (first :: others) = some result ↔ IsBroadcast (first :: others) result := by
  have spec := computeBroadCastDims_spec first others
  refine ⟨spec.1 result, fun isBroadcast => ?_⟩
  cases isResult : computeBroadCastDims (first :: others) with
  | some result' => exact congrArg some ((spec.1 result' isResult).unique isBroadcast)
  | none => exact absurd isBroadcast.broadcastable (spec.2 isResult)

/-- The order of the inputs does not matter, nor how often a shape is among them. -/
theorem computeBroadCastDims_same {first first' : List Nat} {others others' : List (List Nat)}
    (same : ∀ shape, shape ∈ first :: others ↔ shape ∈ first' :: others') :
    computeBroadCastDims (first :: others) = computeBroadCastDims (first' :: others') := by
  refine Option.ext fun result => ?_
  rw [computeBroadCastDims_eq_some, computeBroadCastDims_eq_some]
  exact ⟨(·.of_same same), (·.of_same fun shape => (same shape).symm)⟩

theorem computeBroadCastDims_same_swapped : computeBroadCastDims [[2, 1], [3], [1, 1]] =
    computeBroadCastDims [[1, 1], [3], [2, 1], [3]] :=
  computeBroadCastDims_same fun shape => by
    simp only [mem_cons]
    tauto

theorem IsBroadcast.fitsShape (isBroadcast : IsBroadcast shapes result) (isShape : shape ∈ shapes) :
    FitsShape shape result := by
  refine ⟨isBroadcast.atMost shape isShape, fun axis isIn => ?_⟩
  rcases getElem_of_mem isIn with ⟨place, less, rfl⟩
  have atMost := isBroadcast.atMost shape isShape
  have sameLength :
      (List.replicate (result.length - shape.length) 1 ++ shape).length =
        result.length := by
    rw [length_append, length_replicate]
    omega
  have less' : place < result.length := by
    rw [lengthsOf, length_zip, sameLength] at less
    omega
  have isFirst : (lengthsOf shape result)[place].1 = fromEnd shape (result.length - 1 - place) := by
    simp only [lengthsOf, getElem_zip]
    have isEnd : fromEnd (List.replicate (result.length - shape.length) 1 ++ shape)
            (result.length - 1 - place) =
          fromEnd shape (result.length - 1 - place) := by
      rw [fromEnd_append]
      split
      · rfl
      · next notLess =>
          rw [@fromEnd_of_le shape _ (Nat.le_of_not_lt notLess)]
          rw [fromEnd, reverse_replicate, getD_eq_getElem?_getD, getElem?_replicate]
          split <;> rfl
    rw [← isEnd, fromEnd, getD_eq_getElem?_getD,
      getElem?_reverse (by rw [sameLength]; omega), sameLength]
    have isPlace : result.length - 1 - (result.length - 1 - place) = place := by omega
    rw [isPlace, getElem?_eq_getElem (by rwa [sameLength])]
    rfl
  have isSecond :
      (lengthsOf shape result)[place].2 = fromEnd result (result.length - 1 - place) := by
    simp only [lengthsOf, getElem_zip]
    rw [fromEnd, getD_eq_getElem?_getD, getElem?_reverse (by omega)]
    have isPlace : result.length - 1 - (result.length - 1 - place) = place := by omega
    rw [isPlace, getElem?_eq_getElem less']
    rfl
  rw [isFirst, isSecond]
  exact isBroadcast.fits shape isShape _

end Mnn.Geometry.Broadcast
