import Mnn.Core.RasterCache

/-!
# Fusing the regions of a tensor

The loop over one region replaces it by what it is fused to, as long as the
tensor it reads is virtual.  It ends, because the tensors it comes to lie deeper
and deeper in the graph, and it leaves the value of the raster as it was, when
the regions that may be fused keep clear of those whose order they change.
-/

namespace Mnn.Core.Raster

open Region
open Mnn.Foundation.RankedRecursion
open List
open Function

variable {origin : TensorPtr} {input : Region} {front back : List Region} {bound : Nat}

/-! ## How many rounds there are -/

section Weights

/-- A tensor weighs more than the regions that give its value. -/
def weightStep (graph : TensorPtr → TensorDescribe) (tensor : TensorPtr)
    (weights : TensorPtr → Nat) : Nat :=
  if _virtualMemory (graph tensor) then
    1 + ((graph tensor).regions.map fun reg => reg.origin.elim 1 weights).sum
  else
    1

def weight (graph : TensorPtr → TensorDescribe) (rank : TensorPtr → Nat) : TensorPtr → Nat :=
  solve (weightStep graph) 0 rank

/-- A region weighs what its origin does. -/
def regionWeight (graph : TensorPtr → TensorDescribe) (rank : TensorPtr → Nat)
    (reg : Region) : Nat :=
  reg.origin.elim 1 (weight graph rank)

variable {graph : TensorPtr → TensorDescribe} {rank : TensorPtr → Nat}

section

variable (acyclic : Acyclic graph rank)

include acyclic

theorem weightStep_looksBelow :
    LooksBelow (weightStep graph) rank := by
  intro tensor weights weights' same
  unfold weightStep
  by_cases isVirtual : _virtualMemory (graph tensor) = true
  · rw [if_pos isVirtual, if_pos isVirtual]
    congr 2
    apply map_congr_left
    intro reg member
    rcases acyclic tensor isVirtual reg member with
      ⟨origin, isOrigin, smaller⟩
    rw [isOrigin]
    exact same origin smaller
  · rw [if_neg isVirtual, if_neg isVirtual]

theorem weight_virtual {tensor : TensorPtr} (isVirtual : _virtualMemory (graph tensor) = true) :
    weight graph rank tensor = 1 + ((graph tensor).regions.map (regionWeight graph rank)).sum := by
  rw [weight, solve_eq (weightStep_looksBelow acyclic), weightStep, if_pos isVirtual]
  rfl

theorem weight_positive (tensor : TensorPtr) :
    1 ≤ weight graph rank tensor := by
  rw [weight, solve_eq (weightStep_looksBelow acyclic), weightStep]
  split
  · exact Nat.le_add_right ..
  · exact le_refl _

/-- The regions of a tensor are lighter than those that read it. -/
theorem regionWeight_lt (isVirtual : _virtualMemory (graph origin) = true) {reg : Region}
    (isOrigin : input.origin = some origin) (member : reg ∈ (graph origin).regions) :
    regionWeight graph rank reg < regionWeight graph rank input := by
  have isTerm :
      regionWeight graph rank reg ≤ ((graph origin).regions.map (regionWeight graph rank)).sum :=
    le_sum_of_mem (mem_map_of_mem member)
  rw [regionWeight.eq_def graph rank input, isOrigin, Option.elim_some,
    weight_virtual acyclic isVirtual]
  exact lt_of_le_of_lt isTerm (Nat.lt_add_of_pos_left one_pos)

end

end Weights

/-! ## The order of regions -/

section Order

/-- The loop may fuse this region. -/
def MayFuse (graph : TensorPtr → TensorDescribe) (mask : GeometryMask) (reg : Region) : Prop :=
  mask.fuseRegion = true ∧ ∃ origin, reg.origin = some origin ∧
      _virtualMemory (graph origin) = true ∧
      ((graph origin).regions.length ≤ 1 ∨ mask.fuseRegionMulti = true)

/--
Two regions of a list share no cell when the second one may come to write fewer
cells, or the first one may be moved to the end in parts.
-/
def KeepsOrder (graph : TensorPtr → TensorDescribe) (mask : GeometryMask)
    (first second : Region) : Prop :=
  MayFuse graph mask second ∨ (mask.fuseRegionMulti = true ∧ MayFuse graph mask first) →
    Apart first second

def InOrder (graph : TensorPtr → TensorDescribe) (mask : GeometryMask)
    (regions : List Region) : Prop :=
  regions.Pairwise (KeepsOrder graph mask)

theorem Apart.mono {first second first' second' : Region} (apart : Apart first second)
    (inFirst : ∀ cell, first'.Writes cell → first.Writes cell)
    (inSecond : ∀ cell, second'.Writes cell → second.Writes cell) :
    Apart first' second' :=
  fun cell writes writes' =>
    apart cell (inFirst cell writes) (inSecond cell writes')

variable {graph : TensorPtr → TensorDescribe} {mask : GeometryMask}

theorem InOrder.replace {added : List Region} {reg reg' : Region}
    (ordered : InOrder graph mask (front ++ reg :: back)) (mayFuse : MayFuse graph mask reg)
    (inside : ∀ part ∈ reg' :: added, ∀ cell, part.Writes cell → reg.Writes cell)
    (multi : added ≠ [] → mask.fuseRegionMulti = true)
    (parts : InOrder graph mask (reg' :: added)) :
    InOrder graph mask (front ++ reg' :: (back ++ added)) := by
  rcases pairwise_append.mp ordered with
    ⟨orderedFront, orderedRest, across⟩
  rcases pairwise_cons.mp orderedRest with ⟨behind, orderedBack⟩
  rcases pairwise_cons.mp parts with ⟨behindNew, orderedAdded⟩
  have isPart : ∀ cell, reg'.Writes cell → reg.Writes cell := inside reg' mem_cons_self
  have before : ∀ other ∈ front, ∀ part ∈ reg' :: added, KeepsOrder graph mask other part := by
    intro other member part isIn _
    have apart := across other member reg mem_cons_self
    exact (apart (Or.inl mayFuse)).mono (fun _ => id) (inside part isIn)
  apply pairwise_append.mpr
  refine ⟨orderedFront, pairwise_cons.mpr ⟨?_, ?_⟩, ?_⟩
  · intro other member
    rcases mem_append.mp member with inBack | inAdded
    · rintro (fusesOther | ⟨isMulti, -⟩)
      · exact (behind other inBack (Or.inl fusesOther)).mono isPart fun _ => id
      · exact (behind other inBack (Or.inr ⟨isMulti, mayFuse⟩)).mono isPart fun _ => id
    · exact behindNew other inAdded
  · apply pairwise_append.mpr
    refine ⟨orderedBack, orderedAdded, ?_⟩
    intro other member part isIn _
    have isMulti := multi (ne_nil_of_mem isIn)
    have apart := behind other member (Or.inr ⟨isMulti, mayFuse⟩)
    exact (apart.mono (inside part (mem_cons_of_mem _ isIn)) fun _ => id).symm
  · intro other member part isIn
    rcases mem_cons.mp isIn with rfl | later
    · exact before other member part mem_cons_self
    · rcases mem_append.mp later with inBack | inAdded
      · exact across other member part (mem_cons_of_mem _ inBack)
      · exact before other member part (mem_cons_of_mem _ inAdded)

theorem KeepsOrder.fused {srcReg srcReg' dstReg fused fused' : Region}
    (fuses : FusesPair fused srcReg dstReg) (fuses' : FusesPair fused' srcReg' dstReg)
    (keeps : KeepsOrder graph mask srcReg srcReg') :
    KeepsOrder graph mask fused fused' := by
  intro mayFuse
  rcases fuses.origin with isEmpty | sameOrigin
  · exact fun cell writes => absurd writes (empty_not_writes isEmpty cell)
  · rcases fuses'.origin with isEmpty | sameOrigin'
    · exact fun cell _ => empty_not_writes isEmpty cell
    · simp only [MayFuse, sameOrigin, sameOrigin'] at mayFuse
      exact fuses.apart fuses' (keeps mayFuse)

end Order

/-! ## The loop over one region -/

section Loop

variable {fuseUtils : FuseWrap} {mask : GeometryMask}
  {graph tensors : TensorPtr → TensorDescribe} {rank : TensorPtr → Nat}
  {Value : Type*} [Zero Value] {values : Memory Value}

/-- The regions of a virtual tensor give its value. -/
def Evaluates (graph : TensorPtr → TensorDescribe) (values : Memory Value) : Prop :=
  ∀ tensor, _virtualMemory (graph tensor) = true →
    rasterValue (graph tensor).regions values = values tensor

/-- A region reads a tensor of smaller rank. -/
def ReadsBelow (rank : TensorPtr → Nat) (bound : Nat) (reg : Region) : Prop :=
  ∃ origin, reg.origin = some origin ∧ rank origin < bound

/-- What the loop makes of `front ++ input :: back`. -/
structure Fused
    (graph : TensorPtr → TensorDescribe) (mask : GeometryMask)
    (rank : TensorPtr → Nat) (bound : Nat) (values : Memory Value)
    (front : List Region) (input : Region) (back : List Region)
    (input' : Region) (added : List Region) : Prop where
  value :
    rasterValue (front ++ input' :: (back ++ added)) values =
      rasterValue (front ++ input :: back) values
  inOrder : InOrder graph mask (front ++ input' :: (back ++ added))
  live :
    input'.size 0 = 0 ∨ (ReadsBelow rank bound input' ∧ (added.map (regionWeight graph rank)).sum +
            regionWeight graph rank input' ≤
          regionWeight graph rank input)
  below : ∀ reg ∈ added, ReadsBelow rank bound reg
  weight : (added.map (regionWeight graph rank)).sum + 1 ≤ regionWeight graph rank input

theorem Fused.refl (acyclic : Acyclic graph rank) (below : ReadsBelow rank bound input)
    (ordered : InOrder graph mask (front ++ input :: back)) :
    Fused graph mask rank bound values front input back input [] where
  value := by rw [append_nil]
  inOrder := by rwa [append_nil]
  live := Or.inr ⟨below, le_of_eq (zero_add _)⟩
  below := by
    intro reg member
    cases member
  weight := by
    rcases below with ⟨origin, isOrigin, -⟩
    rw [regionWeight, isOrigin]
    exact weight_positive acyclic origin

/-- The value of a region which is fused to all regions of its origin. -/
theorem rasterValue_fusedInput (sound : fuseUtils.Sound) (evaluates : Evaluates graph values)
    (isOrigin : input.origin = some origin) (isVirtual : _virtualMemory (graph origin) = true)
    (matched : ∀ reg ∈ (graph origin).regions, fuseUtils.match reg input = true)
    {cell : Int} (writes : input.Writes cell) :
    rasterValue ((graph origin).regions.map fun reg => fuseUtils.apply reg input) values cell =
      rasterValue [input] values cell := by
  cases read : input.source cell with
  | none => exact absurd writes (source_eq_none.mp read)
  | some middle =>
    have plain : rasterValue [input] values cell = values origin middle := by
      rw [rasterValue_eq, foldl_cons, foldl_nil, blitFrom, isOrigin]
      simp only
      rw [input.blit_eq, read]
      rfl
    rw [plain, rasterValue_fused sound matched read, evaluates origin isVirtual]

/-- The parts of an input that is fused to all regions of its origin. -/
theorem Fused.round (acyclic : Acyclic graph rank) (sound : fuseUtils.Sound)
    (evaluates : Evaluates graph values) {rest : List Region} {first : Region}
    (isOrigin : input.origin = some origin) (isVirtual : _virtualMemory (graph origin) = true)
    (smaller : rank origin < bound) (regionsEq : (graph origin).regions = first :: rest)
    (matched : ∀ reg ∈ (graph origin).regions, fuseUtils.match reg input = true)
    (fuses : mask.fuseRegion = true) (multi : rest ≠ [] → mask.fuseRegionMulti = true)
    (orderedOrigin : InOrder graph mask (graph origin).regions)
    (ordered : InOrder graph mask (front ++ input :: back)) :
    Fused graph mask rank bound values front input back (fuseUtils.apply first input)
      ((rest.map fun reg => fuseUtils.apply reg input).filter fun newReg =>
        newReg.size 0 ≠ 0) := by
  have isMember : ∀ reg ∈ rest, reg ∈ (graph origin).regions := by
    intro reg member
    rw [regionsEq]
    exact mem_cons_of_mem _ member
  have firstMember : first ∈ (graph origin).regions := by
    rw [regionsEq]
    exact mem_cons_self
  have pair : ∀ reg ∈ (graph origin).regions, FusesPair (fuseUtils.apply reg input) reg input :=
    fun reg member => sound reg input (matched reg member)
  -- A part that is not empty reads what the region it comes from reads.
  have reads :
      ∀ reg ∈ (graph origin).regions, (fuseUtils.apply reg input).size 0 ≠ 0 →
          ReadsBelow rank bound (fuseUtils.apply reg input) ∧
            regionWeight graph rank (fuseUtils.apply reg input) = regionWeight graph rank reg := by
    intro reg member notEmpty
    have sameOrigin := (pair reg member).origin.resolve_left notEmpty
    rcases acyclic origin isVirtual reg member with ⟨deeper, isDeeper, below⟩
    constructor
    · exact ⟨deeper, sameOrigin.trans isDeeper, below.trans smaller⟩
    · rw [regionWeight, regionWeight, sameOrigin]
  have mayFuse : MayFuse graph mask input := by
    refine ⟨fuses, origin, isOrigin, isVirtual, ?_⟩
    by_cases single : rest = []
    · left
      rw [regionsEq, single]
      exact le_refl _
    · exact Or.inr (multi single)
  have inside :
      ∀ part ∈ fuseUtils.apply first input :: (rest.map fun reg => fuseUtils.apply reg input).filter
            fun newReg => newReg.size 0 ≠ 0,
        ∀ cell, part.Writes cell → input.Writes cell := by
    intro part member
    rcases mem_cons.mp member with rfl | later
    · exact (pair first firstMember).inside
    · rcases mem_map.mp (mem_of_mem_filter later) with
        ⟨reg, regMember, rfl⟩
      exact (pair reg (isMember reg regMember)).inside
  have needsMulti : (rest.map fun reg => fuseUtils.apply reg input).filter
          (fun newReg => newReg.size 0 ≠ 0) ≠ [] →
        mask.fuseRegionMulti = true := by
    intro notNil
    apply multi
    rintro rfl
    exact notNil rfl
  have weightEq := weight_virtual acyclic isVirtual
  rw [regionsEq, map_cons, sum_cons] at weightEq
  have inputWeight :
      regionWeight graph rank input = 1 + (regionWeight graph rank first +
          (rest.map (regionWeight graph rank)).sum) := by
    rw [← weightEq, regionWeight, isOrigin]
    rfl
  have lighter :
      ∀ regions : List Region, (∀ reg ∈ regions, reg ∈ (graph origin).regions) →
          ((((regions.map fun reg => fuseUtils.apply reg input).filter
              fun newReg => newReg.size 0 ≠ 0).map (regionWeight graph rank)).sum) ≤
            (regions.map (regionWeight graph rank)).sum := by
    intro regions
    induction regions with
    | nil => exact fun _ => le_refl _
    | cons reg others ih =>
      intro members
      have later := ih fun other member =>
          members other (mem_cons_of_mem _ member)
      rw [map_cons, map_cons, sum_cons]
      by_cases isEmpty : (fuseUtils.apply reg input).size 0 = 0
      · rw [filter_cons_of_neg (by simpa using isEmpty)]
        omega
      · rw [filter_cons_of_pos (by simpa using isEmpty), map_cons, sum_cons,
          (reads reg (members reg mem_cons_self) isEmpty).2]
        omega
  have restLighter := lighter rest isMember
  constructor
  case value =>
    apply rasterValue_replace
    · rcases pairwise_append.mp ordered with ⟨-, -, across⟩
      intro other member
      exact across other member input mem_cons_self (Or.inl mayFuse)
    · intro notNil other member
      rcases pairwise_append.mp ordered with ⟨-, orderedRest, -⟩
      rcases pairwise_cons.mp orderedRest with ⟨behind, -⟩
      exact behind other member (Or.inr ⟨needsMulti notNil, mayFuse⟩)
    · exact inside
    · intro cell writes
      rw [← rasterValue_fusedInput sound evaluates isOrigin isVirtual matched
        writes, regionsEq, rasterValue_eq, rasterValue_eq, map_cons,
        foldl_cons, foldl_cons, foldl_blitFrom_drop]
      intro reg _ dropped
      apply empty_not_writes
      simpa using dropped
  case inOrder =>
    refine ordered.replace mayFuse inside needsMulti ?_
    rw [regionsEq] at orderedOrigin
    have mapped : InOrder graph mask
          ((first :: rest).map fun reg => fuseUtils.apply reg input) := by
      apply pairwise_map.mpr
      apply orderedOrigin.imp_of_mem
      intro reg reg' member member' keeps
      rw [← regionsEq] at member member'
      exact keeps.fused (pair reg member) (pair reg' member')
    exact List.Pairwise.sublist (List.Sublist.cons_cons _ filter_sublist) mapped
  case live =>
    by_cases isEmpty : (fuseUtils.apply first input).size 0 = 0
    · exact Or.inl isEmpty
    · right
      rcases reads first firstMember isEmpty with ⟨below, sameWeight⟩
      refine ⟨below, ?_⟩
      rw [sameWeight, inputWeight]
      omega
  case below =>
    intro part member
    rcases mem_filter.mp member with ⟨isPart, notEmpty⟩
    rcases mem_map.mp isPart with ⟨reg, regMember, rfl⟩
    exact (reads reg (isMember reg regMember) (by simpa using notEmpty)).1
  case weight =>
    rw [inputWeight]
    omega

theorem Fused.trans {added added' : List Region} {middle input' : Region}
    (one : Fused graph mask rank bound values front input back middle added)
    (notEmpty : middle.size 0 ≠ 0)
    (two : Fused graph mask rank bound values front middle (back ++ added) input' added') :
    Fused graph mask rank bound values front input back input' (added ++ added') := by
  rcases one.live.resolve_left notEmpty with ⟨-, lighter⟩
  constructor
  case value =>
    rw [← append_assoc]
    exact two.value.trans one.value
  case inOrder =>
    rw [← append_assoc]
    exact two.inOrder
  case live =>
    rcases two.live with isEmpty | ⟨below, lighter'⟩
    · exact Or.inl isEmpty
    · right
      refine ⟨below, ?_⟩
      rw [map_append, sum_append]
      omega
  case below =>
    intro reg member
    rcases mem_append.mp member with inOne | inTwo
    · exact one.below reg inOne
    · exact two.below reg inTwo
  case weight =>
    have lighter' := two.weight
    rw [map_append, sum_append]
    omega

theorem Fused.nothing (evaluates : Evaluates graph values) (acyclic : Acyclic graph rank)
    (isOrigin : input.origin = some origin) (isVirtual : _virtualMemory (graph origin) = true)
    (regionsEq : (graph origin).regions = []) (fuses : mask.fuseRegion = true)
    (ordered : InOrder graph mask (front ++ input :: back)) :
    Fused graph mask rank bound values front input back
      { input with size := update input.size 0 0 } [] := by
  have isEmpty : update input.size 0 0 0 = 0 := update_self ..
  have silent : ∀ cell, ¬Region.Writes { input with size := update input.size 0 0 } cell :=
    empty_not_writes isEmpty
  have mayFuse : MayFuse graph mask input := by
    refine ⟨fuses, origin, isOrigin, isVirtual, Or.inl ?_⟩
    rw [regionsEq]
    exact Nat.zero_le _
  have inside :
      ∀ part ∈ [({ input with size := update input.size 0 0 } : Region)],
        ∀ cell, part.Writes cell → input.Writes cell := by
    intro part member cell writes
    rw [mem_singleton.mp member] at writes
    exact absurd writes (silent cell)
  constructor
  case value =>
    apply rasterValue_replace
    · rcases pairwise_append.mp ordered with ⟨-, -, across⟩
      intro other member
      exact across other member input mem_cons_self (Or.inl mayFuse)
    · exact fun notNil => absurd rfl notNil
    · exact inside
    · intro cell writes
      cases read : input.source cell with
      | none => exact absurd writes (source_eq_none.mp read)
      | some middle =>
        have nothing : values origin = 0 := by
          rw [← evaluates origin isVirtual, regionsEq]
          rfl
        rw [rasterValue_eq, foldl_cons, foldl_nil,
          blitFrom_other (silent cell), rasterValue_eq, foldl_cons,
          foldl_nil, blitFrom, isOrigin]
        simp only
        rw [input.blit_eq, read, nothing]
        rfl
  case inOrder =>
    exact ordered.replace mayFuse inside (fun notNil => absurd rfl notNil) (pairwise_singleton _ _)
  case live => exact Or.inl isEmpty
  case below =>
    intro reg member
    cases member
  case weight =>
    rw [regionWeight, isOrigin]
    exact weight_positive acyclic origin

/-- Tensors below the bound are as in the graph, or have their command. -/
def Pending (graph tensors : TensorPtr → TensorDescribe) (rank : TensorPtr → Nat)
    (bound : Nat) : Prop :=
  ∀ tensor, rank tensor < bound →
    tensors tensor = graph tensor ∨ _virtualMemory (tensors tensor) = false

/-- The loop over one region ends, and the raster keeps its value. -/
theorem fuseInput_spec (acyclic : Acyclic graph rank) (sound : fuseUtils.Sound)
    (evaluates : Evaluates graph values)
    (orderedGraph :
      ∀ tensor, _virtualMemory (graph tensor) = true → InOrder graph mask (graph tensor).regions)
    (pending : Pending graph tensors rank bound) {fuel : Nat} (below : ReadsBelow rank bound input)
    (enough : regionWeight graph rank input ≤ fuel)
    (ordered : InOrder graph mask (front ++ input :: back)) :
    ∃ input' added isEmpty, fuseInput fuseUtils mask tensors fuel (front ++ input :: back)
          front.length =
        some (front ++ input' :: (back ++ added), isEmpty) ∧
      Fused graph mask rank bound values front input back input' added := by
  induction fuel generalizing input back with
  | zero =>
    rcases below with ⟨origin, isOrigin, -⟩
    rw [regionWeight, isOrigin] at enough
    exact absurd (weight_positive acyclic origin) (Nat.not_lt_of_le enough)
  | succ fuel ih =>
    have stays :
        ∃ input' added isEmpty,
          some (front ++ input :: back, false) =
            some (front ++ input' :: (back ++ added), isEmpty) ∧
          Fused graph mask rank bound values front input back input'
            added := by
      refine ⟨input, [], false, ?_, Fused.refl acyclic below ordered⟩
      rw [append_nil]
    rcases below with ⟨origin, isOrigin, smaller⟩
    have here : (front ++ input :: back)[front.length]? = some input := by
      simp
    have set : ∀ reg, (front ++ input :: back).set front.length reg = front ++ reg :: back := by
      intro reg
      simp
    have goesOn :
        ∀ fused newRegs, Fused graph mask rank bound values front input back fused newRegs →
          (fused.size 0 ≠ 0 → regionWeight graph rank fused < regionWeight graph rank input) →
            ∃ input' added isEmpty, (if fused.size 0 = 0 then
                  some (front ++ fused :: (back ++ newRegs), true)
                else
                  fuseInput fuseUtils mask tensors fuel
                    (front ++ fused :: (back ++ newRegs)) front.length) =
                some (front ++ input' :: (back ++ added), isEmpty) ∧
              Fused graph mask rank bound values front input back input'
                added := by
      intro fused newRegs one lighter
      by_cases isEmpty : fused.size 0 = 0
      · exact ⟨fused, newRegs, true, if_pos isEmpty, one⟩
      · rcases one.live.resolve_left isEmpty with ⟨below, -⟩
        have fewer := Nat.le_of_lt_succ (lt_of_lt_of_le (lighter isEmpty) enough)
        rcases ih below fewer one.inOrder with
          ⟨input', added, flag, isResult, two⟩
        refine ⟨input', newRegs ++ added, flag, ?_, one.trans isEmpty two⟩
        rw [if_neg isEmpty, isResult, append_assoc]
    unfold fuseInput
    simp only [here, isOrigin]
    split
    · exact stays
    · next fusable =>
      rw [Decidable.not_not, Bool.and_eq_true] at fusable
      rcases fusable with ⟨stillVirtual, fuses⟩
      have same : tensors origin = graph origin := by
        rcases pending origin smaller with same | lowered
        · exact same
        · rw [lowered] at stillVirtual
          cases stillVirtual
      rw [same] at stillVirtual ⊢
      cases regionsEq : (graph origin).regions with
      | nil =>
        refine ⟨_, [], true, ?_, Fused.nothing evaluates acyclic isOrigin stillVirtual regionsEq
            fuses ordered⟩
        simp only [set, append_nil, isOrigin]
      | cons first rest =>
        have orderedOrigin := orderedGraph origin stillVirtual
        have firstMember : first ∈ (graph origin).regions := by
          rw [regionsEq]
          exact mem_cons_self
        have lighter :
            fuseUtils.match first input = true →
            (fuseUtils.apply first input).size 0 ≠ 0 →
              regionWeight graph rank (fuseUtils.apply first input) <
                regionWeight graph rank input := by
          intro matched notEmpty
          have pair := sound first input matched
          rw [regionWeight, pair.origin.resolve_left notEmpty]
          exact regionWeight_lt acyclic stillVirtual isOrigin firstMember
        simp only [set]
        split
        · next several =>
          split
          · exact stays
          · next multi =>
            rw [Decidable.not_not] at multi
            split
            · exact stays
            · next matched =>
              rw [Decidable.not_not, all_eq_true] at matched
              have one := Fused.round acyclic sound evaluates isOrigin stillVirtual
                  smaller regionsEq (by rwa [regionsEq]) fuses
                  (fun _ => multi) orderedOrigin ordered
              rw [append_assoc, cons_append]
              apply goesOn _ _ one
              exact lighter (matched first mem_cons_self)
        · next single =>
          have isLast : rest = [] := by
            cases rest with
            | nil => rfl
            | cons second others =>
              exact absurd (Nat.lt_add_left _ (Nat.one_lt_two)) single
          subst isLast
          split
          · exact stays
          · next matched =>
            rw [Decidable.not_not] at matched
            have one := Fused.round acyclic sound evaluates isOrigin stillVirtual
                smaller regionsEq (by rw [regionsEq]; simpa using matched)
                fuses (fun notNil => absurd rfl notNil) orderedOrigin
                ordered
            have result := goesOn _ _ one (lighter matched)
            simpa using result

end Loop

end Mnn.Core.Raster
