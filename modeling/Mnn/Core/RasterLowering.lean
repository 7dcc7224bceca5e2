import Mnn.Core.RasterFusion
import Mnn.Core.FuseRegion

/-!
# Lowering virtual tensors

When a tensor is lowered, the tensors its regions read are lowered first.  A
tensor gets its command once, behind the commands of the tensors it reads, and
its regions then give its value in the graph.  Running the commands in their
order therefore leaves every tensor that has a command with its value.
-/

variable {tensor src : TensorPtr} {busy : TensorPtr → Prop} {context : Context}
  {regions : List Region} {commands commands' : List Command}

namespace Mnn.Core.Raster

open Region
open Mnn.Foundation.RankedRecursion
open List
open Option
open Function

section Invariant

variable {Value : Type*} [Zero Value]

/-- The tensor has memory of its own, or a command among these. -/
def Ready (graph : TensorPtr → TensorDescribe) (commands : List Command)
    (tensor : TensorPtr) : Prop :=
  _virtualMemory (graph tensor) = true → ∃ command ∈ commands, command.output = tensor

/-- Every tensor that the region reads is ready. -/
def ReadsReady (graph : TensorPtr → TensorDescribe) (commands : List Command)
    (reg : Region) : Prop :=
  0 < reg.size 0 → ∃ origin, reg.origin = some origin ∧ Ready graph commands origin

/-- What holds between two calls, with the tensors being lowered as `busy`. -/
structure Lowered
    (graph : TensorPtr → TensorDescribe) (values : Memory Value)
    (busy : TensorPtr → Prop) (context : Context) : Prop where
  fresh :
    ∀ tensor, ¬busy tensor → (∀ command ∈ context.command, command.output ≠ tensor) →
        context.tensors tensor = graph tensor
  notBusy : ∀ command ∈ context.command, ¬busy command.output
  isVirtual : ∀ command ∈ context.command, _virtualMemory (graph command.output) = true
  marked : ∀ command ∈ context.command, _virtualMemory (context.tensors command.output) = false
  value :
    ∀ command ∈ context.command, rasterValue (context.tensors command.output).regions values =
        values command.output
  once : (context.command.map Command.output).Nodup
  ready :
    ∀ earlier command later, context.command = earlier ++ command :: later →
      ∀ reg ∈ (context.tensors command.output).regions, ReadsReady graph earlier reg

/-- Later calls add commands and leave what was finished as it was. -/
structure Extends
    (busy : TensorPtr → Prop) (before after : Context) : Prop where
  command : before.command <+: after.command
  done : ∀ command ∈ before.command, after.tensors command.output = before.tensors command.output
  busy : ∀ tensor, busy tensor → after.tensors tensor = before.tensors tensor

variable {graph : TensorPtr → TensorDescribe} {values : Memory Value}
  {busy : TensorPtr → Prop} {context before middle after : Context}

theorem Ready.mono (ready : Ready graph commands tensor) (isPrefix : commands <+: commands') :
    Ready graph commands' tensor := by
  intro isVirtual
  rcases ready isVirtual with ⟨command, member, isOutput⟩
  exact ⟨command, isPrefix.subset member, isOutput⟩

theorem ReadsReady.mono {reg : Region} (reads : ReadsReady graph commands reg)
    (isPrefix : commands <+: commands') :
    ReadsReady graph commands' reg := by
  intro positive
  rcases reads positive with ⟨origin, isOrigin, ready⟩
  exact ⟨origin, isOrigin, ready.mono isPrefix⟩

theorem Extends.refl : Extends busy context context where
  command := prefix_refl _
  done := fun _ _ => rfl
  busy := fun _ _ => rfl

theorem Extends.trans (first : Extends busy before middle) (second : Extends busy middle after) :
    Extends busy before after where
  command := first.command.trans second.command
  done := by
    intro command member
    rw [second.done command (first.command.subset member),
      first.done command member]
  busy := by
    intro tensor isBusy
    rw [second.busy tensor isBusy, first.busy tensor isBusy]

theorem Extends.weaken {busy' : TensorPtr → Prop} (extended : Extends busy' before after)
    (fewer : ∀ tensor, busy tensor → busy' tensor) :
    Extends busy before after where
  command := extended.command
  done := extended.done
  busy := fun tensor isBusy => extended.busy tensor (fewer tensor isBusy)

theorem setRegions_other (other : tensor ≠ src) :
    (context.setRegions src regions).tensors tensor = context.tensors tensor :=
  update_of_ne other ..

theorem setRegions_self :
    (context.setRegions src regions).tensors src =
      { context.tensors src with regions := regions } :=
  update_self ..

theorem Lowered.setRegions (lowered : Lowered graph values busy context)
    (isBusy : busy src) (regions : List Region) :
    Lowered graph values busy (context.setRegions src regions) := by
  have same :
      ∀ command ∈ context.command, (context.setRegions src regions).tensors command.output =
          context.tensors command.output := by
    intro command member
    apply setRegions_other
    rintro rfl
    exact lowered.notBusy command member isBusy
  constructor
  case fresh =>
    intro tensor notBusy unlisted
    rw [setRegions_other]
    · exact lowered.fresh tensor notBusy unlisted
    · rintro rfl
      exact notBusy isBusy
  case notBusy => exact lowered.notBusy
  case isVirtual => exact lowered.isVirtual
  case marked =>
    intro command member
    rw [same command member]
    exact lowered.marked command member
  case value =>
    intro command member
    rw [same command member]
    exact lowered.value command member
  case once => exact lowered.once
  case ready =>
    intro earlier command later split
    have member : command ∈ context.command := by
      rw [show context.command = _ from split]
      exact mem_append_cons_self
    rw [same command member]
    exact lowered.ready earlier command later split

theorem Extends.setRegions (notBusy : ¬busy src)
    (unlisted : ∀ command ∈ context.command, command.output ≠ src) (regions : List Region) :
    Extends busy context (context.setRegions src regions) where
  command := prefix_refl _
  done := fun command member => setRegions_other (unlisted command member)
  busy := by
    intro tensor isBusy
    apply setRegions_other
    rintro rfl
    exact notBusy isBusy

/-- The tensor `src` is being lowered, too. -/
def BusyWith (busy : TensorPtr → Prop) (src tensor : TensorPtr) : Prop := busy tensor ∨ tensor = src

/-- A tensor is finished when its regions are right and read what is ready. -/
theorem Lowered.create (lowered : Lowered graph values (BusyWith busy src) context)
    (notBusy : ¬busy src) (isVirtual : _virtualMemory (graph src) = true)
    (stillVirtual : _virtualMemory (context.tensors src) = true)
    (value : rasterValue (context.tensors src).regions values = values src)
    (reads : ∀ reg ∈ (context.tensors src).regions, ReadsReady graph context.command reg) :
    Lowered graph values busy (context.getRasterCacheCreate src) ∧
      Extends busy context (context.getRasterCacheCreate src) ∧
      Ready graph (context.getRasterCacheCreate src).command src := by
  have unlisted : ∀ command ∈ context.command, command.output ≠ src :=
    fun command member isSrc => lowered.notBusy command member (Or.inr isSrc)
  have created :
      context.getRasterCacheCreate src =
        { tensors :=
            update context.tensors src { context.tensors src with rasterCommand := true }
          command :=
            context.command ++
              [{ output := src
                 inputs := (context.tensors src).regions.map Region.origin }] } :=
    if_pos stillVirtual
  rw [created]
  have same : ∀ command ∈ context.command, update context.tensors src
            { context.tensors src with rasterCommand := true }
            command.output =
          context.tensors command.output :=
    fun command member => update_of_ne (unlisted command member) ..
  refine ⟨?_, ?_, ?_⟩
  · constructor
    case fresh =>
      intro tensor free notListed
      have other : tensor ≠ src := by
        rintro rfl
        exact notListed _ (mem_append_right _ (mem_singleton_self _))
          rfl
      simp only [update_of_ne other]
      apply lowered.fresh tensor
      · rintro (isBusy | isSrc)
        · exact free isBusy
        · exact other isSrc
      · exact fun command member =>
          notListed command (mem_append_left _ member)
    case notBusy =>
      intro command member
      rcases mem_append.mp member with old | new
      · exact fun isBusy => lowered.notBusy command old (Or.inl isBusy)
      · rw [mem_singleton.mp new]
        exact notBusy
    case isVirtual =>
      intro command member
      rcases mem_append.mp member with old | new
      · exact lowered.isVirtual command old
      · rw [mem_singleton.mp new]
        exact isVirtual
    case marked =>
      intro command member
      rcases mem_append.mp member with old | new
      · simp only [same command old]
        exact lowered.marked command old
      · rw [mem_singleton.mp new]
        simp [_virtualMemory]
    case value =>
      intro command member
      rcases mem_append.mp member with old | new
      · simp only [same command old]
        exact lowered.value command old
      · rw [mem_singleton.mp new]
        simp only [update_self]
        exact value
    case once =>
      rw [map_append, nodup_append]
      refine ⟨lowered.once, nodup_singleton _, ?_⟩
      intro tensor listed other isLast
      rcases mem_map.mp listed with ⟨command, member, rfl⟩
      rw [mem_singleton.mp isLast]
      exact unlisted command member
    case ready =>
      intro earlier command later split
      rcases eq_nil_or_concat later with rfl | ⟨later, last, rfl⟩
      · rcases append_inj' split rfl with ⟨rfl, isLast⟩
        rw [← singleton_inj.mp isLast]
        simp only [update_self]
        exact reads
      · rw [concat_eq_append, ← cons_append, ← append_assoc] at split
        rcases append_inj' split rfl with ⟨isOld, -⟩
        have member : command ∈ context.command := by
          rw [isOld]
          exact mem_append_cons_self
        simp only [same command member]
        exact lowered.ready earlier command later isOld
  · constructor
    case command => exact prefix_append ..
    case done => exact same
    case busy =>
      intro tensor isBusy
      apply update_of_ne
      rintro rfl
      exact notBusy isBusy
  · intro _
    exact ⟨_, mem_append_right _ (mem_singleton_self _), rfl⟩

end Invariant

/-! ## The loops -/

section Loops

variable {Value : Type*} [Zero Value] {fuseUtils : FuseWrap} {mask : GeometryMask}
  {graph : TensorPtr → TensorDescribe} {rank : TensorPtr → Nat}
  {values : Memory Value}

/-- What a call for `origin` does. -/
def Lowers (graph : TensorPtr → TensorDescribe) (values : Memory Value)
    (busy : TensorPtr → Prop) (context : Context) (origin : TensorPtr)
    (result : Option Context) : Prop :=
  ∃ after, result = some after ∧ Lowered graph values busy after ∧
    Extends busy context after ∧ Ready graph after.command origin

/-- While `src` is lowered, with the regions in `front` already looked at. -/
structure Working
    (graph : TensorPtr → TensorDescribe) (mask : GeometryMask)
    (rank : TensorPtr → Nat) (values : Memory Value)
    (busy : TensorPtr → Prop) (context : Context) (src : TensorPtr)
    (front rest : List Region) : Prop where
  lowered : Lowered graph values (BusyWith busy src) context
  tensor : context.tensors src = { graph src with regions := front ++ rest }
  value : rasterValue (front ++ rest) values = values src
  inOrder : InOrder graph mask (front ++ rest)
  done : ∀ reg ∈ front, ReadsReady graph context.command reg
  below : ∀ reg ∈ rest, ReadsBelow rank (rank src) reg

/-- Tensors of smaller rank are as in the graph, or have their command. -/
theorem Lowered.pending {bound : Nat} (lowered : Lowered graph values busy context)
    (above : ∀ tensor, busy tensor → bound ≤ rank tensor) :
    Pending graph context.tensors rank bound := by
  intro tensor smaller
  by_cases listed : ∃ command ∈ context.command, command.output = tensor
  · rcases listed with ⟨command, member, rfl⟩
    exact Or.inr (lowered.marked command member)
  · left
    apply lowered.fresh tensor
    · exact fun isBusy => Nat.not_le_of_lt smaller (above tensor isBusy)
    · exact fun command member isTensor => listed ⟨command, member, isTensor⟩

/-- The loop over the regions ends, and leaves the tensor its value. -/
theorem fuseRegions_spec (acyclic : Acyclic graph rank) (sound : fuseUtils.Sound)
    (evaluates : Evaluates graph values)
    (orderedGraph :
      ∀ tensor, _virtualMemory (graph tensor) = true → InOrder graph mask (graph tensor).regions)
    (above : ∀ tensor, busy tensor → rank src < rank tensor)
    {limit : Nat} {recurse : Context → TensorPtr → Option Context}
    (recursion :
      ∀ context origin, Lowered graph values (BusyWith busy src) context →
        rank origin < rank src → weight graph rank origin ≤ limit →
          Lowers graph values (BusyWith busy src) context origin (recurse context origin))
    {fuel : Nat} {front rest : List Region} (needDelete : Bool)
    (working : Working graph mask rank values busy context src front rest)
    (enough : (rest.map (regionWeight graph rank)).sum ≤ fuel) (limited : fuel ≤ limit) :
    ∃ after needDelete' regions, fuseRegions fuseUtils mask recurse fuel context src front.length
          needDelete =
        some (after, needDelete') ∧
      Working graph mask rank values busy after src regions [] ∧
      Extends busy context after := by
  have notBusy : ¬busy src := fun isBusy => lt_irrefl _ (above src isBusy)
  induction fuel generalizing context front rest needDelete with
  | zero =>
    cases rest with
    | nil =>
      refine ⟨context, needDelete, front, ?_, working, Extends.refl⟩
      unfold fuseRegions
      simp [working.tensor]
    | cons input back =>
      exfalso
      rcases working.below input mem_cons_self with
        ⟨origin, isOrigin, -⟩
      have positive := weight_positive acyclic origin
      rw [map_cons, sum_cons, regionWeight, isOrigin, elim_some] at enough
      omega
  | succ fuel ih =>
    cases rest with
    | nil =>
      refine ⟨context, needDelete, front, ?_, working, Extends.refl⟩
      unfold fuseRegions
      simp [working.tensor]
    | cons input back =>
      rw [map_cons, sum_cons] at enough
      have pending : Pending graph context.tensors rank (rank src) := by
        apply working.lowered.pending
        rintro tensor (isBusy | rfl)
        · exact le_of_lt (above tensor isBusy)
        · exact le_refl _
      have inputWeight : regionWeight graph rank input ≤ fuel + 1 := by
        omega
      rcases fuseInput_spec acyclic sound evaluates orderedGraph pending
            (working.below input mem_cons_self) inputWeight
            working.inOrder with
        ⟨input', added, isEmpty, isResult, fused⟩
      have lighter := fused.weight
      have restWeight : ((back ++ added).map (regionWeight graph rank)).sum ≤ fuel := by
        rw [map_append, sum_append]
        omega
      have found :
          (front ++ input' :: (back ++ added))[front.length]? =
            some input' := by
        simp
      have unlisted : ∀ command ∈ context.command, command.output ≠ src :=
        fun command member isSrc =>
          working.lowered.notBusy command member (Or.inr isSrc)
      let regions := front ++ input' :: (back ++ added)
      have changed : Extends busy context (context.setRegions src regions) :=
        Extends.setRegions notBusy unlisted regions
      have loweredNow := working.lowered.setRegions (Or.inr rfl) regions
      have belowNow : ∀ reg ∈ back ++ added, ReadsBelow rank (rank src) reg := by
        intro reg member
        rcases mem_append.mp member with old | new
        · exact working.below reg (mem_cons_of_mem _ old)
        · exact fused.below reg new
      have valueNow := fused.value.trans working.value
      have split : regions = (front ++ [input']) ++ (back ++ added) := append_cons ..
      have next :
          ∀ after : Context, Lowered graph values (BusyWith busy src) after →
            Extends (BusyWith busy src) (context.setRegions src regions) after →
            ReadsReady graph after.command input' → Working graph mask rank values busy after src
                (front ++ [input']) (back ++ added) := by
        intro after lowered extended ready
        constructor
        case lowered => exact lowered
        case tensor =>
          rw [extended.busy src (Or.inr rfl), setRegions_self, working.tensor, ← split]
        case value =>
          rw [← split]
          exact valueNow
        case inOrder =>
          rw [← split]
          exact fused.inOrder
        case done =>
          intro reg member
          rcases mem_append.mp member with old | new
          · exact (working.done reg old).mono extended.command
          · rwa [mem_singleton.mp new]
        case below => exact belowNow
      have length : front.length + 1 = (front ++ [input']).length := by
        simp
      unfold fuseRegions
      have goesOn : ¬(context.tensors src).regions.length ≤ front.length := by
        rw [working.tensor]
        simp
      simp only [if_neg goesOn]
      have start : (context.tensors src).regions = front ++ input :: back := by
        rw [working.tensor]
      simp only [start, isResult, found]
      by_cases positive : input'.size 0 > 0
      · rcases fused.live.resolve_left (by omega) with
          ⟨⟨origin, isOrigin, smaller⟩, stillLight⟩
        have originWeight : weight graph rank origin ≤ limit := by
          rw [regionWeight.eq_def graph rank input', isOrigin, elim_some] at stillLight
          omega
        rcases recursion _ origin loweredNow smaller originWeight with
          ⟨after, isAfter, lowered, extended, ready⟩
        have ready' : ReadsReady graph after.command input' := fun _ => ⟨origin, isOrigin, ready⟩
        rcases ih (needDelete || isEmpty) (next after lowered extended ready') restWeight
              (by omega) with
          ⟨last, flag, final, isLast, finished, grown⟩
        refine ⟨last, flag, final, ?_, finished,
            (changed.trans (extended.weaken fun _ => Or.inl)).trans grown⟩
        simp only [if_pos positive, isOrigin]
        rw [show recurse (context.setRegions src
            (front ++ input' :: (back ++ added))) origin = some after
            from isAfter]
        simp only [length]
        exact isLast
      · have idle : ReadsReady graph (context.setRegions src regions).command
              input' :=
          fun isPositive => absurd isPositive positive
        rcases ih (needDelete || isEmpty) (next _ loweredNow Extends.refl idle) restWeight
              (by omega) with
          ⟨last, flag, final, isLast, finished, grown⟩
        refine ⟨last, flag, final, ?_, finished, changed.trans grown⟩
        simp only [if_neg positive, length]
        exact isLast

theorem Working.delete (notBusy : ¬busy src) (needDelete : Bool)
    (working : Working graph mask rank values busy context src regions []) :
    ∃ after regions', (if needDelete then
          context.setRegions src ((context.tensors src).regions.filter fun input =>
              ¬(input.size 0 = 0 ∨ input.size 1 = 0 ∨ input.size 2 = 0))
        else
          context) = after ∧
      Working graph mask rank values busy after src regions' [] ∧
      Extends busy context after := by
  cases needDelete with
  | false => exact ⟨context, regions, rfl, working, Extends.refl⟩
  | true =>
    have unlisted : ∀ command ∈ context.command, command.output ≠ src :=
      fun command member isSrc =>
        working.lowered.notBusy command member (Or.inr isSrc)
    have start : (context.tensors src).regions = regions := by
      rw [working.tensor]
      exact append_nil _
    have value := working.value
    have inOrder := working.inOrder
    rw [append_nil] at value inOrder
    let kept :=
      regions.filter fun input =>
        ¬(input.size 0 = 0 ∨ input.size 1 = 0 ∨ input.size 2 = 0)
    refine ⟨context.setRegions src kept, kept, by rw [if_pos rfl, start], ?_,
        Extends.setRegions notBusy unlisted kept⟩
    constructor
    case lowered => exact working.lowered.setRegions (Or.inr rfl) _
    case tensor =>
      rw [setRegions_self, working.tensor]
      simp only [append_nil]
    case value =>
      rw [append_nil, rasterValue_eq, foldl_blitFrom_drop]
      · exact value
      · rintro reg - dropped cell ⟨first, copies⟩
        rcases Decidable.not_not.mp (of_decide_eq_false dropped) with isZero | isZero | isZero
        · exact absurd (copies.positive 0) (by rw [isZero]; decide)
        · exact absurd (copies.positive 1) (by rw [isZero]; decide)
        · exact absurd (copies.positive 2) (by rw [isZero]; decide)
    case inOrder =>
      rw [append_nil]
      exact List.Pairwise.sublist filter_sublist inOrder
    case done =>
      intro reg member
      exact working.done reg (mem_of_mem_filter member)
    case below =>
      intro reg member
      cases member

theorem getRasterCacheCreateRecursive_lowers
    (acyclic : Acyclic graph rank) (sound : fuseUtils.Sound) (evaluates : Evaluates graph values)
    (noZeroDim : ∀ tensor, _virtualMemory (graph tensor) = true → (graph tensor).hasZeroDim = false)
    (orderedGraph :
      ∀ tensor, _virtualMemory (graph tensor) = true → InOrder graph mask (graph tensor).regions)
    {fuel : Nat} (lowered : Lowered graph values busy context)
    (above : ∀ tensor, busy tensor → rank src < rank tensor)
    (enough : weight graph rank src ≤ fuel) :
    Lowers graph values busy context src
      (getRasterCacheCreateRecursive fuseUtils mask fuel context src) := by
  have notBusy : ¬busy src := fun isBusy => lt_irrefl _ (above src isBusy)
  induction fuel generalizing busy context src with
  | zero =>
    exact absurd (weight_positive acyclic src) (Nat.not_lt_of_le enough)
  | succ fuel ih =>
    unfold getRasterCacheCreateRecursive
    by_cases stillVirtual : _virtualMemory (context.tensors src) = true
    · have unlisted : ∀ command ∈ context.command, command.output ≠ src := by
        rintro command member rfl
        rw [lowered.marked command member] at stillVirtual
        cases stillVirtual
      have same := lowered.fresh src notBusy unlisted
      have isVirtual : _virtualMemory (graph src) = true := by
        rwa [same] at stillVirtual
      rw [weight_virtual acyclic isVirtual] at enough
      have working : Working graph mask rank values busy context src [] (graph src).regions := by
        constructor
        case lowered =>
          constructor
          case fresh =>
            intro tensor free
            exact lowered.fresh tensor fun isBusy => free (Or.inl isBusy)
          case notBusy =>
            rintro command member (isBusy | isSrc)
            · exact lowered.notBusy command member isBusy
            · exact unlisted command member isSrc
          case isVirtual => exact lowered.isVirtual
          case marked => exact lowered.marked
          case value => exact lowered.value
          case once => exact lowered.once
          case ready => exact lowered.ready
        case tensor => exact same
        case value => exact evaluates src isVirtual
        case inOrder => exact orderedGraph src isVirtual
        case done =>
          intro reg member
          cases member
        case below => exact acyclic src isVirtual
      have recursion :
          ∀ context origin, Lowered graph values (BusyWith busy src) context →
            rank origin < rank src → weight graph rank origin ≤ fuel →
              Lowers graph values (BusyWith busy src) context origin
                (getRasterCacheCreateRecursive fuseUtils mask fuel context origin) := by
        intro context origin lowered smaller light
        apply ih lowered _ light
        · rintro (isBusy | rfl)
          · exact lt_asymm smaller (above origin isBusy)
          · exact lt_irrefl _ smaller
        · rintro tensor (isBusy | rfl)
          · exact smaller.trans (above tensor isBusy)
          · exact smaller
      rcases fuseRegions_spec acyclic sound evaluates orderedGraph above
            recursion false working (by omega) (le_refl fuel) with
        ⟨after, needDelete, regions, isAfter, finished, grown⟩
      rcases finished.delete notBusy needDelete with
        ⟨last, regions', isLast, cleaned, shrunk⟩
      have value := cleaned.value
      rw [append_nil] at value
      have tensor := cleaned.tensor
      rw [append_nil] at tensor
      rcases cleaned.lowered.create notBusy isVirtual (by rw [tensor]; exact isVirtual)
            (by rw [tensor]; exact value)
            (by rw [tensor]; exact cleaned.done) with
        ⟨loweredLast, created, ready⟩
      refine ⟨_, ?_, loweredLast, (grown.trans shrunk).trans created, ready⟩
      rw [if_neg (not_not_intro stillVirtual),
        if_neg (by rw [same, noZeroDim src isVirtual]; exact Bool.false_ne_true)]
      rw [show fuseRegions fuseUtils mask
            (getRasterCacheCreateRecursive fuseUtils mask fuel) fuel context
            src 0 false = some (after, needDelete) from isAfter]
      simp only [isLast]
    · refine ⟨context, if_pos stillVirtual, lowered, Extends.refl, ?_⟩
      intro isVirtual
      by_contra missing
      have same := lowered.fresh src notBusy fun command member isSrc =>
          missing ⟨command, member, isSrc⟩
      rw [same] at stillVirtual
      exact stillVirtual isVirtual

end Loops

/-! ## Running the commands -/

section Execution

variable {Value : Type*} [Zero Value] {graph : TensorPtr → TensorDescribe} {rank : TensorPtr → Nat}
  {memory values : Memory Value} {context : Context}

theorem tensorStep_looksBelow (acyclic : Acyclic graph rank) (memory : Memory Value) :
    LooksBelow (tensorStep graph memory) rank := by
  intro tensor values values' same
  unfold tensorStep
  by_cases isVirtual : _virtualMemory (graph tensor) = true
  · rw [if_pos isVirtual, if_pos isVirtual]
    apply rasterValue_congr
    intro reg member _ origin isOrigin
    rcases acyclic tensor isVirtual reg member with ⟨other, isOther, smaller⟩
    rw [isOrigin] at isOther
    cases isOther
    exact same origin smaller
  · rw [if_neg isVirtual, if_neg isVirtual]

theorem evaluate_virtual (acyclic : Acyclic graph rank) (memory : Memory Value) :
    Evaluates graph (evaluate graph rank memory) := by
  intro tensor isVirtual
  rw [eq_comm, evaluate, solve_eq (tensorStep_looksBelow acyclic memory), tensorStep,
    if_pos isVirtual]

theorem evaluate_real (acyclic : Acyclic graph rank)
    (isReal : ¬_virtualMemory (graph tensor) = true) :
    evaluate graph rank memory tensor = memory tensor := by
  rw [evaluate, solve_eq (tensorStep_looksBelow acyclic memory), tensorStep, if_neg isReal]

theorem Lowered.execute (lowered : Lowered graph values busy context)
    (real : ∀ tensor, ¬_virtualMemory (graph tensor) = true → memory tensor = values tensor)
    {earlier later : List Command} (split : context.command = earlier ++ later)
    (ready : Ready graph earlier tensor) :
    execute context.tensors earlier memory tensor = values tensor := by
  induction earlier using List.reverseRecOn generalizing later tensor with
  | nil =>
    apply real tensor
    intro isVirtual
    rcases ready isVirtual with ⟨command, member, -⟩
    cases member
  | append_singleton earlier command ih =>
    have splitHere : context.command = earlier ++ command :: later := by
      rw [split, append_assoc, singleton_append]
    have member : command ∈ context.command := by
      rw [splitHere]
      exact mem_append_cons_self
    rw [Raster.execute, foldl_append, foldl_cons, foldl_nil, ← Raster.execute]
    by_cases isOutput : tensor = command.output
    · rw [isOutput, update_self, ← lowered.value command member]
      apply rasterValue_congr
      intro reg regMember positive origin isOrigin
      rcases lowered.ready earlier command later splitHere reg regMember positive with
        ⟨other, isOther, otherReady⟩
      rw [isOrigin] at isOther
      cases isOther
      exact ih splitHere otherReady
    · rw [update_of_ne isOutput]
      apply ih splitHere
      intro isVirtual
      rcases ready isVirtual with ⟨other, otherMember, rfl⟩
      rcases mem_append.mp otherMember with old | new
      · exact ⟨other, old, rfl⟩
      · exact absurd (congrArg _ (mem_singleton.mp new)) isOutput

/-- What the commands made for `output` are good for. -/
structure Refines
    (graph : TensorPtr → TensorDescribe) (rank : TensorPtr → Nat)
    (memory : Memory Value) (output : TensorPtr) (context : Context) :
    Prop where
  value : execute context.tensors context.command memory output = evaluate graph rank memory output
  /-- What is read has memory, or exactly one command, which comes earlier. -/
  readsEarlier :
    ∀ earlier command later, context.command = earlier ++ command :: later →
      ∀ reg ∈ (context.tensors command.output).regions, 0 < reg.size 0 →
        ∃ origin, reg.origin = some origin ∧ (_virtualMemory (graph origin) = true →
            origin ∈ earlier.map Command.output ∧
              (context.command.map Command.output).count origin = 1)

/-- With enough fuel there are commands, and they are right. -/
def LoweringRefines (fuseUtils : FuseWrap) (mask : GeometryMask)
    (graph : TensorPtr → TensorDescribe) (rank : TensorPtr → Nat)
    (memory : Memory Value) (output : TensorPtr) : Prop :=
  ∀ fuel, weight graph rank output ≤ fuel → ∃ context,
      getRasterCacheCreateRecursive fuseUtils mask fuel { tensors := graph } output =
        some context ∧
      Refines graph rank memory output context

end Execution

/-! ## A slice written over a concatenation -/

section Slice

instance (fused srcReg dstReg : Region) :
    Decidable (SameOrigins fused srcReg dstReg) :=
  decidable_of_iff (∀ target ∈ dstReg.moves.map Prod.snd, fused.blit some (fun _ => none) target =
        dstReg.blit (srcReg.blit some fun _ => none) (fun _ => none) target)
    (by simp only [writes_iff, SameOrigins])

instance (fused srcReg dstReg : Region) :
    Decidable (FusesPair fused srcReg dstReg) :=
  decidable_of_iff (SameOrigins fused srcReg dstReg ∧
      (∀ cell ∈ fused.moves.map Prod.snd, cell ∈ dstReg.moves.map Prod.snd) ∧
      (fused.size 0 = 0 ∨ fused.origin = srcReg.origin))
    (by
      simp only [writes_iff]
      constructor
      · exact fun ⟨same, inside, origin⟩ => ⟨same, inside, origin⟩
      · exact fun ⟨same, inside, origin⟩ => ⟨same, inside, origin⟩)

instance (first second : Region) : Decidable (Apart first second) :=
  decidable_of_iff (∀ cell ∈ first.moves.map Prod.snd, cell ∉ second.moves.map Prod.snd)
    (by simp only [writes_iff, Apart])

/-- `FuseRegionStatus`, with every result checked on the cells it writes. -/
def FuseWrap.checked : FuseWrap where
  «match» srcReg dstReg :=
    match ({} : FuseRegionStatus).match srcReg dstReg with
    | none => false
    | some next => decide (FusesPair (next.apply srcReg dstReg) srcReg dstReg)
  apply srcReg dstReg :=
    match ({} : FuseRegionStatus).match srcReg dstReg with
    | none => dstReg
    | some next => next.apply srcReg dstReg

theorem FuseWrap.checked_sound : FuseWrap.checked.Sound := by
  intro srcReg dstReg matched
  simp only [checked] at matched ⊢
  cases found : ({} : FuseRegionStatus).match srcReg dstReg with
  | none =>
    rw [found] at matched
    cases matched
  | some next =>
    rw [found] at matched
    exact of_decide_eq_true matched

/-- A row of another tensor. -/
def row (origin : TensorPtr) (first second length : Int) : Region where
  src := { offset := first }
  dst := { offset := second }
  size := ![1, 1, length]
  origin := some origin

/--
Tensor 0 is a concatenation of the tensors 2 and 3.  Tensor 1 is a copy of it
into which tensor 4 is written from cell `start`.
-/
def sliceGraph (start : Int) : TensorPtr → TensorDescribe
  | 0 => { isVirtual := true, regions := [row 2 0 0 2, row 3 0 2 2] }
  | 1 => { isVirtual := true, regions := [row 0 0 0 4, row 4 0 start 2] }
  | _ => {}

def sliceRank : TensorPtr → Nat
  | 0 => 1
  | 1 => 2
  | _ => 0

/-- Every cell holds the number of its tensor. -/
def sliceMemory : Memory Int := fun tensor _ => tensor

theorem sliceGraph_acyclic (start : Int) : Acyclic (sliceGraph start) sliceRank := by
  intro tensor isVirtual reg member
  match tensor with
  | 0 =>
    rcases mem_pair.mp member with rfl | rfl
    · exact ⟨2, rfl, by decide⟩
    · exact ⟨3, rfl, by decide⟩
  | 1 =>
    rcases mem_pair.mp member with rfl | rfl
    · exact ⟨0, rfl, by decide⟩
    · exact ⟨4, rfl, by decide⟩
  | _ + 2 => cases isVirtual

theorem sliceGraph_noZeroDim (start : Int) (tensor : TensorPtr)
    (isVirtual : _virtualMemory (sliceGraph start tensor) = true) :
    (sliceGraph start tensor).hasZeroDim = false := by
  match tensor with
  | 0 => rfl
  | 1 => rfl
  | _ + 2 => cases isVirtual

end Slice

end Mnn.Core.Raster
