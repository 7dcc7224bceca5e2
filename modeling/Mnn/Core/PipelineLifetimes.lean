import Mnn.Core.Pipeline

/-!
# Lifetimes of tensors

Behind each command, the counts say how often each tensor is still read.  So memory that
is read later on is kept, and what is releasable is released where it is read last.
-/

namespace Mnn.Core.ResizePlanner

open List
open Function

namespace Pipeline

variable {Tensor Content Backend Mem Pool : Type}
variable [DecidableEq Tensor] [DecidableEq Content]
variable {pipeline : Pipeline Tensor Content Backend Mem Pool}
variable {index : Int} {allocInput : Bool}
variable {infos : List (OpCacheInfo Tensor Backend)}
variable {start before after state final : State Tensor Content Backend Mem Pool}

/-! ## Counts -/

/-- Only counts of uses differ. -/
def SameDescribe (before after : Content → NativeInsideDescribe) : Prop :=
  ∀ c, (after c).memoryType = (before c).memoryType ∧
      (after c).usage = (before c).usage ∧ (after c).group = (before c).group

omit [DecidableEq Content] in
theorem SameDescribe.refl (describe : Content → NativeInsideDescribe) :
    SameDescribe describe describe :=
  fun _ => ⟨rfl, rfl, rfl⟩

omit [DecidableEq Content] in
theorem SameDescribe.trans {first second third : Content → NativeInsideDescribe}
    (before : SameDescribe first second) (after : SameDescribe second third) :
    SameDescribe first third := by
  intro c
  rcases before c with ⟨memory, usage, group⟩
  rcases after c with ⟨memory', usage', group'⟩
  exact ⟨memory'.trans memory, usage'.trans usage, group'.trans group⟩

omit [DecidableEq Tensor] in
variable (pipeline) in
theorem sameDescribe_setUseCount (t : Tensor) (useCount : Int)
    (state : State Tensor Content Backend Mem Pool) :
    SameDescribe state.describe (pipeline.setUseCount t useCount state).describe := by
  intro c
  by_cases same : c = pipeline.content t
  · subst same
    simp [setUseCount, getDescribe]
  · simp [setUseCount, same]

omit [DecidableEq Tensor] in
variable (pipeline) in
theorem setUseCount_self (t : Tensor) (useCount : Int)
    (state : State Tensor Content Backend Mem Pool) :
    ((pipeline.setUseCount t useCount state).describe
        (pipeline.content t)).useCount = useCount := by
  simp [setUseCount]

omit [DecidableEq Tensor] in
theorem setUseCount_of_ne {t : Tensor} (useCount : Int)
    (state : State Tensor Content Backend Mem Pool) {c : Content} (other : c ≠ pipeline.content t) :
    (pipeline.setUseCount t useCount state).describe c = state.describe c :=
  update_of_ne other ..

/-- The count of each description that `all` reads is how often `remaining` does. -/
def Counts (pipeline : Pipeline Tensor Content Backend Mem Pool) (all remaining : List Tensor)
    (describe : Content → NativeInsideDescribe) : Prop :=
  ∀ c ∈ all.map pipeline.content, (describe c).usage ≠ .CONSTANT →
      (describe c).useCount = ((remaining.map pipeline.content).count c : Int)

/-- What a pass over the uses of tensors keeps. -/
structure Passed (before after : State Tensor Content Backend Mem Pool) : Prop where
  describe : SameDescribe before.describe after.describe
  mem : after.mem = before.mem
  backend : after.backend = before.backend

omit [DecidableEq Tensor] in
/-- A pass changes the count of a description with each of its uses. -/
theorem foldl_setUseCount (step : State Tensor Content Backend Mem Pool → Tensor →
      State Tensor Content Backend Mem Pool) (change : Int → Int)
    (isStep : ∀ state t, step state t = if (pipeline.getDescribe t state).usage ≠ .CONSTANT then
      pipeline.setUseCount t (change (pipeline.getDescribe t state).useCount) state else state)
    (uses : List Tensor) (state : State Tensor Content Backend Mem Pool) :
    Passed state (uses.foldl step state) ∧ ∀ c, (state.describe c).usage ≠ .CONSTANT →
      ((uses.foldl step state).describe c).useCount =
        change^[(uses.map pipeline.content).count c] (state.describe c).useCount := by
  induction uses generalizing state with
  | nil => exact ⟨⟨.refl _, rfl, rfl⟩, fun c _ => rfl⟩
  | cons t uses ih =>
    rw [foldl_cons]
    rcases ih (step state t) with ⟨passed, counts⟩
    rw [isStep] at passed counts ⊢
    split at passed
    case isTrue isCounted =>
      have same := sameDescribe_setUseCount pipeline t
        (change (pipeline.getDescribe t state).useCount) state
      rw [if_pos isCounted] at counts ⊢
      refine ⟨⟨same.trans passed.describe, passed.mem, passed.backend⟩, ?_⟩
      intro c notConstant
      rw [counts c (by rw [(same c).2.1]; exact notConstant), map_cons]
      by_cases isFirst : c = pipeline.content t
      · subst isFirst
        rw [setUseCount_self, count_cons_self, Function.iterate_succ_apply, getDescribe]
      · rw [setUseCount_of_ne _ _ isFirst, count_cons_of_ne (Ne.symm isFirst)]
    case isFalse isConstant =>
      rw [if_neg isConstant] at counts ⊢
      refine ⟨passed, fun c notConstant => ?_⟩
      have other : c ≠ pipeline.content t := by
        rintro rfl
        exact isConstant notConstant
      rw [counts c notConstant, map_cons, count_cons_of_ne (Ne.symm other)]

omit [DecidableEq Tensor] in
variable (pipeline) in
theorem counted_spec (infos : List (OpCacheInfo Tensor Backend))
    (start : State Tensor Content Backend Mem Pool) :
    Passed start (pipeline.counted infos start) ∧
      Counts pipeline (reads (commands infos)) (reads (commands infos))
        (pipeline.counted infos start).describe := by
  obtain ⟨reset, areZero⟩ := foldl_setUseCount pipeline.resetCount (fun _ => 0)
    (fun _ _ => rfl) (reads (commands infos)) start
  obtain ⟨passed, counts⟩ := foldl_setUseCount pipeline.countUse (· + 1)
    (fun _ _ => rfl) (reads (commands infos))
    ((reads (commands infos)).foldl pipeline.resetCount start)
  refine ⟨⟨reset.describe.trans passed.describe, passed.mem.trans reset.mem,
        passed.backend.trans reset.backend⟩, ?_⟩
  intro c isRead notConstant
  have sameUsage := (reset.describe.trans passed.describe c).2.1
  have notConstant' : (start.describe c).usage ≠ .CONSTANT := by
    rw [← sameUsage]
    exact notConstant
  have isCount := counts c (by rw [(reset.describe c).2.1]; exact notConstant')
  have isZero := areZero c notConstant'
  obtain ⟨n, isUsed⟩ := Nat.exists_eq_add_one_of_ne_zero (Nat.ne_of_gt (count_pos_iff.mpr isRead))
  rw [isUsed, Function.iterate_succ_apply'] at isZero
  refine isCount.trans ?_
  rw [isZero]
  simp

/-! ## Allocating -/

theorem bind_eq_ok {Error First Second : Type} {first : Except Error First}
    {next : First → Except Error Second} {result : Second} (isOk : first >>= next = .ok result) :
    ∃ middle, first = .ok middle ∧ next middle = .ok result := by
  cases first with
  | error error => nomatch isOk
  | ok middle => exact ⟨middle, rfl, isOk⟩

/-- What allocating keeps, where `touched` tensors may be allocated. -/
structure Allocated (touched : List Tensor)
    (before after : State Tensor Content Backend Mem Pool) : Prop where
  describe : after.describe = before.describe
  mem : ∀ t mem, before.mem t = some mem → after.mem t = some mem
  backend : ∀ t, before.backend t ≠ none → after.backend t ≠ none
  acquired :
    ∀ t, (before.mem t ≠ none → before.backend t ≠ none) →
      after.mem t ≠ none → after.backend t ≠ none
  untouched : ∀ t, t ∉ touched → after.mem t = before.mem t

omit [DecidableEq Tensor] [DecidableEq Content] in
theorem Allocated.refl (touched : List Tensor) (state : State Tensor Content Backend Mem Pool) :
    Allocated touched state state :=
  ⟨rfl, fun _ _ same => same, fun _ same => same, fun _ holds => holds, fun _ _ => rfl⟩

omit [DecidableEq Tensor] [DecidableEq Content] in
theorem Allocated.trans {touched touched' : List Tensor}
    {first second third : State Tensor Content Backend Mem Pool}
    (before : Allocated touched first second) (after : Allocated touched' second third) :
    Allocated (touched ++ touched') first third where
  describe := after.describe.trans before.describe
  mem := fun t mem isMem => after.mem t mem (before.mem t mem isMem)
  backend := fun t isSome => after.backend t (before.backend t isSome)
  acquired := fun t holds => after.acquired t (before.acquired t holds)
  untouched := by
    intro t fresh
    rw [mem_append, not_or] at fresh
    exact (after.untouched t fresh.2).trans (before.untouched t fresh.1)

omit [DecidableEq Content] in
theorem allocTensor_spec {curBackend : Backend} {t : Tensor}
    (allocates : pipeline.allocTensor curBackend index before t = .ok after) :
    Allocated [t] before after ∧
      ((pipeline.getDescribe t before).group = index → after.mem t ≠ none) := by
  unfold allocTensor at allocates
  split at allocates
  · next otherGroup =>
      obtain rfl := Except.ok.inj allocates
      exact ⟨.refl _ _, fun sameGroup => absurd sameGroup otherGroup⟩
  · split at allocates
    · next mem isMem =>
        obtain rfl := Except.ok.inj allocates
        exact ⟨.refl _ _, fun _ => by rw [isMem]; exact nofun⟩
    · next isEmpty =>
        split at allocates
        · nomatch allocates
        · next mem pool _ =>
            obtain rfl := Except.ok.inj allocates
            refine ⟨⟨rfl, fun other mem' isMem => ?_, fun other isSome => ?_,
              fun other holds isSome => ?_, fun other fresh => ?_⟩, fun _ => ?_⟩
            · have notSame : other ≠ t := by
                rintro rfl
                exact absurd (isEmpty.symm.trans isMem) nofun
              exact (update_of_ne notSame ..).trans isMem
            · show update _ _ _ _ ≠ _
              rw [update_apply]
              split
              · exact nofun
              · exact isSome
            · show update _ _ _ _ ≠ _
              have isSome' : update before.mem t (some mem) other ≠ none := isSome
              rw [update_apply] at isSome' ⊢
              split
              · exact nofun
              · next notSame =>
                  rw [if_neg notSame] at isSome'
                  exact holds isSome'
            · rw [mem_singleton] at fresh
              exact update_of_ne fresh ..
            · show update _ _ _ _ ≠ _
              rw [update_self]
              exact nofun

omit [DecidableEq Content] in
theorem foldlM_allocTensor_spec {curBackend : Backend} {tensors : List Tensor}
    (allocates : tensors.foldlM (pipeline.allocTensor curBackend index) before = .ok after) :
    Allocated tensors before after ∧ ∀ t ∈ tensors,
        (pipeline.getDescribe t before).group = index → after.mem t ≠ none := by
  induction tensors generalizing before with
  | nil =>
    obtain rfl := Except.ok.inj allocates
    exact ⟨.refl _ _, fun t isIn => nomatch isIn⟩
  | cons first tensors ih =>
    rw [foldlM_cons] at allocates
    rcases bind_eq_ok allocates with ⟨middle, isFirst, areOthers⟩
    have one := allocTensor_spec isFirst
    have others := ih areOthers
    refine ⟨one.1.trans others.1, fun t isIn sameGroup => ?_⟩
    rcases mem_cons.mp isIn with rfl | isIn
    · have isSome := one.2 sameGroup
      rcases Option.ne_none_iff_exists'.mp isSome with ⟨mem, isMem⟩
      rw [others.1.mem t mem isMem]
      exact nofun
    · refine others.2 t isIn ?_
      rw [getDescribe, one.1.describe]
      exact sameGroup

omit [DecidableEq Content] in
theorem allocTensors_spec {needed : Bool} {curBackend : Backend} {tensors : List Tensor}
    (allocates : pipeline.allocTensors index needed curBackend tensors before = .ok after) :
    Allocated tensors before after ∧ (needed = true → ∀ t ∈ tensors,
          (pipeline.getDescribe t before).group = index → after.mem t ≠ none) := by
  unfold allocTensors at allocates
  split at allocates
  · have spec := foldlM_allocTensor_spec allocates
    exact ⟨spec.1, fun _ => spec.2⟩
  · next notNeeded =>
      obtain rfl := Except.ok.inj allocates
      exact ⟨.refl _ _, fun isNeeded => absurd isNeeded notNeeded⟩

omit [DecidableEq Tensor] [DecidableEq Content] in
theorem resizeExecution_spec {command : Command Tensor Backend}
    (resizes : pipeline.resizeExecution index command before = .ok after) :
    ∃ pool, after = { before with pool := pool } := by
  unfold resizeExecution at resizes
  split at resizes
  · simp only at resizes
    split at resizes
    · nomatch resizes
    · exact ⟨_, (Except.ok.inj resizes).symm⟩
  · exact ⟨_, (Except.ok.inj resizes).symm⟩

omit [DecidableEq Content] in
theorem prepare_spec {command : Command Tensor Backend}
    (prepares : pipeline.prepare index allocInput command before = .ok after) :
    Allocated (command.workInputs ++ command.workOutputs) before after ∧
      (command.needAllocIO = true → ∀ t ∈ command.workOutputs,
          (pipeline.getDescribe t before).group = index → after.mem t ≠ none) := by
  rcases bind_eq_ok prepares with ⟨first, isFirst, rest⟩
  rcases bind_eq_ok rest with ⟨second, isSecond, isLast⟩
  rcases resizeExecution_spec isLast with ⟨pool, rfl⟩
  have inputs := (allocTensors_spec isFirst).1
  have outputs := allocTensors_spec isSecond
  have both := inputs.trans outputs.1
  refine ⟨⟨both.describe, both.mem, both.backend, both.acquired, both.untouched⟩,
      fun needed t isIn sameGroup => ?_⟩
  refine outputs.2 needed t isIn ?_
  rw [getDescribe, inputs.describe]
  exact sameGroup

/-! ## Releasing -/

omit [DecidableEq Content] in
variable (pipeline) in
theorem resetMem_apply (t other : Tensor) (state : State Tensor Content Backend Mem Pool) :
    (pipeline.resetMem t state).mem other =
      if other = t then none else state.mem other := by
  unfold resetMem
  split
  · next isEmpty =>
      split
      · next same => rw [same, isEmpty]
      · rfl
  · exact update_apply ..

omit [DecidableEq Content] in
variable (pipeline) in
theorem resetMem_keeps (t : Tensor) (state : State Tensor Content Backend Mem Pool) :
    (pipeline.resetMem t state).describe = state.describe ∧
      (pipeline.resetMem t state).backend = state.backend := by
  unfold resetMem
  split <;> exact ⟨rfl, rfl⟩

/-- What is left of the counts after one read. -/
def readOnce (pipeline : Pipeline Tensor Content Backend Mem Pool) (t : Tensor)
    (state : State Tensor Content Backend Mem Pool) :
    State Tensor Content Backend Mem Pool :=
  if (pipeline.getDescribe t state).usage ≠ .CONSTANT then
    pipeline.setUseCount t ((pipeline.getDescribe t state).useCount - 1) state
  else
    state

omit [DecidableEq Tensor] in
variable (pipeline) in
theorem passed_readOnce (t : Tensor) (state : State Tensor Content Backend Mem Pool) :
    Passed state (readOnce pipeline t state) := by
  unfold readOnce
  split
  · exact ⟨sameDescribe_setUseCount pipeline _ _ _, rfl, rfl⟩
  · exact ⟨.refl _, rfl, rfl⟩

omit [DecidableEq Tensor] in
theorem counts_readOnce {all remaining : List Tensor} {t : Tensor}
    (counts : Counts pipeline all (t :: remaining) state.describe) :
    Counts pipeline all remaining (readOnce pipeline t state).describe := by
  intro c isRead notConstant
  rw [((passed_readOnce pipeline t state).describe c).2.1] at notConstant
  have isCount := counts c isRead notConstant
  rw [map_cons] at isCount
  unfold readOnce
  by_cases same : c = pipeline.content t
  · subst same
    rw [count_cons_self] at isCount
    have isUsed : (pipeline.getDescribe t state).usage ≠ .CONSTANT := notConstant
    rw [if_pos isUsed, setUseCount_self, getDescribe, isCount]
    omega
  · rw [count_cons_of_ne (Ne.symm same)] at isCount
    split
    · rw [setUseCount_of_ne _ _ same]
      exact isCount
    · exact isCount

variable (pipeline) in
theorem releaseTensor_cases (t : Tensor) (state : State Tensor Content Backend Mem Pool) :
    (pipeline.releaseTensor allocInput index state t =
          pipeline.resetMem t (readOnce pipeline t state) ∧
        (pipeline.getDescribe t state).group = index ∧
          pipeline.needRelease t (!allocInput) (readOnce pipeline t state) = true) ∨
      pipeline.releaseTensor allocInput index state t = readOnce pipeline t state ∧
        ¬ ((pipeline.getDescribe t state).group = index ∧
            pipeline.needRelease t (!allocInput) (readOnce pipeline t state) = true) := by
  have isRelease :
      pipeline.releaseTensor allocInput index state t =
        if (pipeline.getDescribe t state).group ≠ index then
          readOnce pipeline t state
        else if
            pipeline.needRelease t (!allocInput) (readOnce pipeline t state) then
          pipeline.resetMem t (readOnce pipeline t state)
        else
          readOnce pipeline t state :=
    rfl
  rw [isRelease]
  by_cases sameGroup : (pipeline.getDescribe t state).group = index
  · rw [if_neg (not_not.mpr sameGroup)]
    by_cases isNeeded : pipeline.needRelease t (!allocInput) (readOnce pipeline t state) = true
    · exact Or.inl ⟨if_pos isNeeded, sameGroup, isNeeded⟩
    · exact Or.inr ⟨if_neg isNeeded, fun both => isNeeded both.2⟩
  · rw [if_pos sameGroup]
    exact Or.inr ⟨rfl, fun both => sameGroup both.1⟩

omit [DecidableEq Tensor] [DecidableEq Content] in
theorem useCount_of_needRelease {t : Tensor} {inputOutside : Bool}
    (needed : pipeline.needRelease t inputOutside state = true) :
    (pipeline.getDescribe t state).useCount = 0 ∧
      (pipeline.getDescribe t state).usage ≠ .CONSTANT := by
  unfold needRelease at needed
  by_cases isZero : (pipeline.getDescribe t state).useCount = 0
  · refine ⟨isZero, fun isConstant => ?_⟩
    simp only [isConstant] at needed
    cases inputOutside <;> grind
  · simp [isZero] at needed

/-- What the releases of a run keep. -/
structure Running (all remaining : List Tensor)
    (start state : State Tensor Content Backend Mem Pool)
    (pipeline : Pipeline Tensor Content Backend Mem Pool) : Prop where
  describe : SameDescribe start.describe state.describe
  counts : Counts pipeline all remaining state.describe
  backend : ∀ t, start.backend t ≠ none → state.backend t ≠ none
  hasBackend :
    ∀ t, (start.mem t ≠ none → start.backend t ≠ none) → state.mem t ≠ none → state.backend t ≠ none

theorem releaseTensor_spec {all remaining : List Tensor} {t : Tensor} (isRead : t ∈ all)
    (running : Running all (t :: remaining) start state pipeline) :
    Running all remaining start (pipeline.releaseTensor allocInput index state t) pipeline ∧
      (∀ other, other ≠ t ∨ other ∈ remaining →
        (pipeline.releaseTensor allocInput index state t).mem other = state.mem other) ∧
        (pipeline.Releasable index allocInput infos start t →
          pipeline.content t ∉ remaining.map pipeline.content →
            (pipeline.releaseTensor allocInput index state t).mem t = none) := by
  have passed := passed_readOnce pipeline t state
  have counts := counts_readOnce running.counts
  have isKept : Running all remaining start (readOnce pipeline t state) pipeline :=
    { describe := running.describe.trans passed.describe
      counts := counts
      backend := by
        rw [passed.backend]
        exact running.backend
      hasBackend := by
        rw [passed.backend, passed.mem]
        exact running.hasBackend }
  have isContent : pipeline.content t ∈ all.map pipeline.content := mem_map_of_mem isRead
  rcases @releaseTensor_cases _ _ _ _ _ _ _ pipeline index allocInput t state with
    ⟨released, -, isNeeded⟩ | ⟨notReleased, notNeeded⟩
  · rw [released]
    have keeps := resetMem_keeps pipeline t (readOnce pipeline t state)
    refine ⟨?_, ?_, ?_⟩
    · exact
        { describe := by rw [keeps.1]; exact isKept.describe
          counts := by rw [keeps.1]; exact isKept.counts
          backend := by rw [keeps.2]; exact isKept.backend
          hasBackend := by
            intro other holds
            rw [keeps.2, resetMem_apply]
            split
            · exact fun impossible => absurd rfl impossible
            · exact isKept.hasBackend other holds }
    · intro other isOther
      have notSame : other ≠ t := by
        rcases isOther with notSame | isLater
        · exact notSame
        · rintro rfl
          rcases useCount_of_needRelease isNeeded with ⟨isZero, notConstant⟩
          have isCount := counts _ isContent notConstant
          rw [getDescribe, isCount] at isZero
          have isPositive := count_pos_iff.mpr (mem_map_of_mem (f := pipeline.content) isLater)
          omega
      rw [resetMem_apply, if_neg notSame, passed.mem]
    · intro _ _
      rw [resetMem_apply, if_pos rfl]
  · rw [notReleased]
    refine ⟨isKept, fun other _ => by rw [passed.mem], ?_⟩
    intro releasable isLast
    by_contra isSome
    refine notNeeded ⟨?_, ?_⟩
    · rw [getDescribe, (running.describe _).2.2]
      exact releasable.group
    · have sameDescribe := isKept.describe (pipeline.content t)
      have notConstant : (start.describe (pipeline.content t)).usage ≠ .CONSTANT := by
        have usage := releasable.usage
        cases allocInput with
        | false =>
          intro isConstant
          exact absurd (usage.symm.trans isConstant) nofun
        | true => exact usage.2.1
      have isZero :
          ((readOnce pipeline t state).describe (pipeline.content t)).useCount =
            0 := by
        rw [counts _ isContent (by rw [sameDescribe.2.1]; exact notConstant),
          count_eq_zero_of_not_mem isLast]
        rfl
      have hasBackend := isKept.hasBackend t releasable.hasBackend isSome
      have notHost := releasable.notHost
      have notOutside := releasable.notOutside
      have usage := releasable.usage
      rw [getDescribe] at notHost notOutside usage
      simp only [needRelease, getDescribe, isZero, sameDescribe.1, sameDescribe.2.1,
        notHost, notOutside, hasBackend, ne_eq, not_true_eq_false, if_false,
        or_self, Option.isNone_iff_eq_none]
      cases allocInput with
      | false => simpa using usage
      | true => simpa using usage

theorem freeInputs_spec {all inputs later : List Tensor} (areRead : ∀ t ∈ inputs, t ∈ all)
    (running : Running all (inputs ++ later) start state pipeline) :
    Running all later start
        (inputs.foldl (pipeline.releaseTensor allocInput index) state) pipeline ∧
      (∀ t, t ∉ inputs ∨ t ∈ later →
        (inputs.foldl (pipeline.releaseTensor allocInput index) state).mem t = state.mem t) ∧
        ∀ t ∈ inputs, pipeline.Releasable index allocInput infos start t →
            pipeline.content t ∉ later.map pipeline.content → (∀ other ∈ inputs,
                  pipeline.content other = pipeline.content t → other = t) →
                (inputs.foldl (pipeline.releaseTensor allocInput index) state).mem t = none := by
  induction inputs generalizing state with
  | nil => exact ⟨running, fun t _ => rfl, fun t isIn => nomatch isIn⟩
  | cons first inputs ih =>
    rw [foldl_cons]
    have one := @releaseTensor_spec _ _ _ _ _ _ _ pipeline index allocInput infos start state
        all (inputs ++ later) first (areRead first mem_cons_self) running
    have others := ih (fun t isIn => areRead t (mem_cons_of_mem _ isIn)) one.1
    refine ⟨others.1, fun t isOther => ?_, fun t isIn releasable isLast owns => ?_⟩
    · rw [others.2.1 t (isOther.imp_left fun fresh isIn =>
        fresh (mem_cons_of_mem _ isIn))]
      refine one.2.1 t ?_
      rcases isOther with fresh | isLater
      · exact Or.inl fun same => fresh (same ▸ mem_cons_self)
      · exact Or.inr (mem_append_right _ isLater)
    · by_cases isAgain : t ∈ inputs
      · exact others.2.2 t isAgain releasable isLast fun other isOther =>
            owns other (mem_cons_of_mem _ isOther)
      · have isFirst : t = first := (mem_cons.mp isIn).resolve_right isAgain
        subst isFirst
        rw [others.2.1 t (Or.inl isAgain)]
        refine one.2.2 releasable fun isCounted => ?_
        rw [map_append, mem_append] at isCounted
        refine isCounted.elim (fun isInput => ?_) isLast
        rcases mem_map.mp isInput with ⟨other, isOther, sameContent⟩
        rw [← owns other (mem_cons_of_mem _ isOther) sameContent] at isAgain
        exact isAgain isOther

/-! ## Runs -/

omit [DecidableEq Tensor] in
theorem Running.started (infos : List (OpCacheInfo Tensor Backend))
    (start : State Tensor Content Backend Mem Pool) :
    Running (reads (commands infos)) (reads (commands infos)) start
      (pipeline.counted infos start) pipeline := by
  rcases counted_spec pipeline infos start with ⟨passed, counts⟩
  exact
    { describe := passed.describe
      counts := counts
      backend := by
        rw [passed.backend]
        exact fun _ isSome => isSome
      hasBackend := by
        rw [passed.backend, passed.mem]
        exact fun _ holds => holds }

omit [DecidableEq Tensor] in
theorem Running.allocated {all remaining touched : List Tensor}
    (running : Running all remaining start before pipeline)
    (allocated : Allocated touched before after) :
    Running all remaining start after pipeline where
  describe := by
    rw [allocated.describe]
    exact running.describe
  counts := by
    rw [allocated.describe]
    exact running.counts
  backend := fun t isSome => allocated.backend t (running.backend t isSome)
  hasBackend := fun t holds =>
    allocated.acquired t (running.hasBackend t holds)

/-- What one command does, where `after` is read later on. -/
structure Stepped (pipeline : Pipeline Tensor Content Backend Mem Pool)
    (index : Int) (allocInput : Bool) (infos : List (OpCacheInfo Tensor Backend))
    (start : State Tensor Content Backend Mem Pool)
    (command : Command Tensor Backend) (after : List (Command Tensor Backend))
    (ready freed : State Tensor Content Backend Mem Pool) : Prop where
  running : Running (reads (commands infos)) (reads after) start freed pipeline
  keeps : ∀ t, t ∉ command.workInputs ∨ t ∈ reads after → freed.mem t = ready.mem t
  releases :
    ∀ t ∈ command.workInputs, t ∉ reads after →
      pipeline.Releasable index allocInput infos start t → freed.mem t = none

section

variable {command : Command Tensor Backend} {before after : List (Command Tensor Backend)}
  (isSplit : commands infos = before ++ command :: after)

include isSplit

theorem freeInputs_stepped {ready : State Tensor Content Backend Mem Pool}
    (running : Running (reads (commands infos)) (reads (command :: after)) start ready pipeline) :
    Stepped pipeline index allocInput infos start command after ready
      (pipeline.freeInputs index allocInput command ready) := by
  have inside : ∀ t ∈ command.workInputs, t ∈ reads (commands infos) := by
    intro t isRead
    rw [isSplit]
    exact mem_flatMap.mpr ⟨command, mem_append_cons_self, isRead⟩
  have later : ∀ t ∈ reads after, t ∈ reads (commands infos) := by
    intro t isRead
    rcases mem_flatMap.mp isRead with ⟨other, isAfter, isRead⟩
    rw [isSplit]
    exact mem_flatMap.mpr ⟨other, mem_append_right _ (mem_cons_of_mem _ isAfter), isRead⟩
  have spec := @freeInputs_spec _ _ _ _ _ _ _ pipeline index allocInput infos start
      ready (reads (commands infos)) command.workInputs (reads after) inside running
  refine
    { running := spec.1, keeps := spec.2.1,
      releases := fun t isRead isLast releasable => ?_ }
  refine spec.2.2 t isRead releasable (fun isCounted => ?_) fun other isOther =>
      releasable.ownsDescribe other (inside other isOther)
  rcases mem_map.mp isCounted with ⟨other, isOther, sameContent⟩
  rw [releasable.ownsDescribe other (later other isOther) sameContent] at isOther
  exact isLast isOther

theorem resizeCommand_spec {freed : State Tensor Content Backend Mem Pool}
    (running : Running (reads (commands infos)) (reads (command :: after)) start state pipeline)
    (ran : pipeline.resizeCommand index allocInput state command = .ok freed) :
    ∃ ready, Allocated (command.workInputs ++ command.workOutputs) state ready ∧
        (command.needAllocIO = true → ∀ t ∈ command.workOutputs,
            (pipeline.getDescribe t state).group = index → ready.mem t ≠ none) ∧
          Stepped pipeline index allocInput infos start command after ready freed := by
  unfold resizeCommand at ran
  cases prepared : pipeline.prepare index allocInput command state with
  | error code =>
    rw [prepared] at ran
    nomatch ran
  | ok ready =>
    rw [prepared] at ran
    obtain rfl := Except.ok.inj ran
    have spec := prepare_spec prepared
    exact ⟨ready, spec.1, spec.2, freeInputs_stepped isSplit (running.allocated spec.1)⟩

end

/-- Commands that ran, behind `before` and before `after`. -/
structure Ran (ran after : List (Command Tensor Backend))
    (state final : State Tensor Content Backend Mem Pool) : Prop where
  /-- What is read later on is kept. -/
  keeps : ∀ t mem, t ∈ reads after → state.mem t = some mem → final.mem t = some mem
  /-- What the commands do not name is not changed. -/
  untouched :
    ∀ t, (∀ command ∈ ran, t ∉ command.workInputs ∧ t ∉ command.workOutputs) →
      final.mem t = state.mem t

variable {before ran after : List (Command Tensor Backend)}

theorem resizeCommands_spec (isSplit : commands infos = before ++ (ran ++ after))
    (running : Running (reads (commands infos)) (reads (ran ++ after)) start state pipeline)
    (hasRun : pipeline.resizeCommands index allocInput ran state = .ok final) :
    Running (reads (commands infos)) (reads after) start final pipeline ∧
      Ran ran after state final := by
  induction ran generalizing before state with
  | nil =>
    obtain rfl := Except.ok.inj hasRun
    exact ⟨running, ⟨fun _ _ _ same => same, fun _ _ => rfl⟩⟩
  | cons command ran ih =>
    rw [resizeCommands, foldlM_cons] at hasRun
    rcases bind_eq_ok hasRun with ⟨freed, isFirst, areOthers⟩
    rcases resizeCommand_spec isSplit running isFirst with
      ⟨ready, allocated, -, stepped⟩
    have isSplit' : commands infos = (before ++ [command]) ++ (ran ++ after) := by
      rw [isSplit, append_assoc]
      rfl
    have others := ih isSplit' stepped.running areOthers
    refine ⟨others.1, ⟨fun t mem isRead isMem => ?_, fun t isFree => ?_⟩⟩
    · have isLater : t ∈ reads (ran ++ after) := by
        rw [reads, flatMap_append]
        exact mem_append_right _ isRead
      refine others.2.keeps t mem isRead ?_
      rw [stepped.keeps t (Or.inr isLater)]
      exact allocated.mem t mem isMem
    · have isFirstFree := isFree command mem_cons_self
      rw [others.2.untouched t fun other isOther =>
          isFree other (mem_cons_of_mem _ isOther),
        stepped.keeps t (Or.inl isFirstFree.1)]
      refine allocated.untouched t fun isTouched => ?_
      exact (mem_append.mp isTouched).elim isFirstFree.1 isFirstFree.2

theorem ran_from_start (isSplit : commands infos = ran ++ after)
    (hasRun :
      pipeline.resizeCommands index allocInput ran (pipeline.counted infos start) = .ok final) :
    Running (reads (commands infos)) (reads after) start final pipeline ∧
      Ran ran after (pipeline.counted infos start) final := by
  have started := @Running.started _ _ _ _ _ _ pipeline infos start
  have isSplit' : commands infos = [] ++ (ran ++ after) := isSplit
  refine resizeCommands_spec isSplit' ?_ hasRun
  rw [← isSplit]
  exact started

theorem resizeCommands_append (first second : List (Command Tensor Backend))
    (hasRun : pipeline.resizeCommands index allocInput (first ++ second) state = .ok final) :
    ∃ middle, pipeline.resizeCommands index allocInput first state = .ok middle ∧
        pipeline.resizeCommands index allocInput second middle = .ok final := by
  rw [resizeCommands, foldlM_append] at hasRun
  exact bind_eq_ok hasRun

theorem exists_last_reader {t : Tensor} (isRead : t ∈ reads ran) :
    ∃ before reader after, ran = before ++ reader :: after ∧ t ∈ reader.workInputs ∧
        t ∉ reads after := by
  induction ran with
  | nil => nomatch isRead
  | cons command ran ih =>
    by_cases isLater : t ∈ reads ran
    · rcases ih isLater with ⟨before, reader, after, rfl, isReader, isLast⟩
      exact ⟨command :: before, reader, after, rfl, isReader, isLast⟩
    · have isFirst : t ∈ command.workInputs := by
        rw [reads, flatMap_cons, mem_append] at isRead
        exact isRead.resolve_right isLater
      exact ⟨[], command, ran, rfl, isFirst, isLater⟩

/-- After its last reader, a releasable tensor that nothing writes has no memory. -/
theorem released_after_last (isSplit : commands infos = before ++ (ran ++ after)) {t : Tensor}
    (releasable : pipeline.Releasable index allocInput infos start t)
    (isRead : t ∈ reads ran) (isLast : t ∉ reads after)
    (notWritten : ∀ command ∈ ran, t ∉ command.workOutputs)
    (running : Running (reads (commands infos)) (reads (ran ++ after)) start state pipeline)
    (hasRun : pipeline.resizeCommands index allocInput ran state = .ok final) :
    final.mem t = none := by
  rcases exists_last_reader isRead with ⟨first, reader, second, rfl, isReader, isLast'⟩
  rcases resizeCommands_append first (reader :: second) hasRun with
    ⟨middle, isFirst, isRest⟩
  rw [resizeCommands, foldlM_cons] at isRest
  rcases bind_eq_ok isRest with ⟨freed, isReader', isSecond⟩
  rw [append_assoc] at isSplit running
  have untilReader := resizeCommands_spec isSplit running isFirst
  rw [← append_assoc, cons_append] at isSplit
  rcases resizeCommand_spec isSplit untilReader.1 isReader' with
    ⟨ready, -, -, stepped⟩
  have isSplit' : commands infos = (before ++ first ++ [reader]) ++ (second ++ after) := by
    rw [isSplit, append_assoc _ [reader]]
    rfl
  have behind := resizeCommands_spec isSplit' stepped.running isSecond
  have notLater : t ∉ reads (second ++ after) := by
    rw [reads, flatMap_append, mem_append]
    exact not_or.mpr ⟨isLast', isLast⟩
  rw [behind.2.untouched t fun command isIn => ?_]
  · exact stepped.releases t isReader notLater releasable
  · refine ⟨fun isInput => isLast' (mem_flatMap.mpr ⟨command, isIn, isInput⟩), ?_⟩
    exact notWritten command (mem_append_right _ (mem_cons_of_mem _ isIn))

/-! ## Intermediate tensors -/

omit [DecidableEq Tensor] [DecidableEq Content] in
theorem mem_reads {list : List (Command Tensor Backend)} {t : Tensor} :
    t ∈ reads list ↔ ∃ command ∈ list, t ∈ command.workInputs :=
  mem_flatMap

omit [DecidableEq Tensor] [DecidableEq Content] in
theorem not_produced_yet {t : Tensor} (before : ∀ command ∈ ran, t ∉ command.workInputs)
    (once : ∀ command ∈ ran, t ∉ command.workOutputs)
    {first : State Tensor Content Backend Mem Pool} (hasRun : Ran ran after first state)
    (startsEmpty : first.mem t = none) :
    state.mem t ≠ none ↔ (∃ command ∈ ran, t ∈ command.workOutputs) ∧
        ∃ command ∈ after, t ∈ command.workInputs := by
  rw [hasRun.untouched t fun command isIn => ⟨before command isIn, once command isIn⟩, startsEmpty]
  refine iff_of_false (fun impossible => impossible rfl) fun both => ?_
  rcases both.1 with ⟨command, isIn, isOutput⟩
  exact once command isIn isOutput

/-- An intermediate tensor lives from its producer to the last command that reads it. -/
theorem Intermediate.lives {t : Tensor}
    (intermediate : pipeline.Intermediate index allocInput infos start t)
    (isSplit : commands infos = ran ++ after)
    (hasRun :
      pipeline.resizeCommands index allocInput ran (pipeline.counted infos start) = .ok state) :
    state.mem t ≠ none ↔ (∃ command ∈ ran, t ∈ command.workOutputs) ∧
        ∃ command ∈ after, t ∈ command.workInputs := by
  rcases intermediate.produced with
    ⟨earlier, later, producer, isProduced, isWritten, needed, once, before, isRead⟩
  have startsEmpty : (pipeline.counted infos start).mem t = none := by
    rw [(counted_spec pipeline infos start).1.mem]
    exact intermediate.empty
  have spec := ran_from_start isSplit hasRun
  have notYet (isEarlier : ∀ command ∈ ran, command ∈ earlier) := not_produced_yet
      (fun command isIn =>
        before command (mem_append_left _ (isEarlier command isIn)))
      (fun command isIn =>
        once command (mem_append_left _ (isEarlier command isIn)))
      spec.2 startsEmpty
  rcases append_eq_append_iff.mp (isSplit.symm.trans isProduced) with
    ⟨rest, areEarlier, -⟩ | ⟨rest, areRan, areLater⟩
  · refine notYet fun command isIn => ?_
    rw [areEarlier]
    exact mem_append_left _ isIn
  · cases rest with
    | nil =>
      refine notYet fun command isIn => ?_
      rw [areRan, append_nil] at isIn
      exact isIn
    | cons first rest =>
      have isLater : later = rest ++ after := (List.cons.inj areLater).2
      obtain rfl := (List.cons.inj areLater).1
      subst areRan
      subst isLater
      rcases resizeCommands_append earlier (producer :: rest) hasRun with
        ⟨middle, isEarlier, isRest⟩
      rw [resizeCommands, foldlM_cons] at isRest
      rcases bind_eq_ok isRest with ⟨freed, isProducer, isBehind⟩
      have untilProducer := ran_from_start isProduced isEarlier
      rcases resizeCommand_spec isProduced untilProducer.1 isProducer with
        ⟨ready, -, allocates, stepped⟩
      have isSplit' : commands infos = (earlier ++ [producer]) ++ (rest ++ after) := by
        rw [isProduced, append_assoc]
        rfl
      have behind := resizeCommands_spec isSplit' stepped.running isBehind
      have isWriter : ∃ command ∈ earlier ++ producer :: rest, t ∈ command.workOutputs :=
        ⟨producer, mem_append_cons_self, isWritten⟩
      rw [← mem_reads, and_iff_right isWriter]
      constructor
      · intro isSome
        by_contra notLater
        have isRead' : t ∈ reads rest := by
          rw [← mem_reads, reads, flatMap_append, mem_append] at isRead
          exact isRead.resolve_right notLater
        refine isSome ?_
        refine released_after_last isSplit' intermediate.releasable isRead' notLater
            (fun command isIn => ?_) stepped.running isBehind
        exact once command (mem_append_right _ (mem_append_left _ isIn))
      · intro isLater
        have hasMem : freed.mem t ≠ none := by
          rw [stepped.keeps t (Or.inl (before producer
                (mem_append_right _ (mem_singleton_self _))))]
          refine allocates needed t isWritten ?_
          rw [getDescribe, (untilProducer.1.describe _).2.2]
          exact intermediate.releasable.group
        rcases Option.ne_none_iff_exists'.mp hasMem with ⟨mem, isMem⟩
        rw [behind.2.keeps t mem isLater isMem]
        exact nofun

/--
Memory that a later command reads is not released, what is releasable is released where
it is read last, and nothing else is released: so intermediate tensors live from their
producer to the last command that reads them.
-/
theorem allocForTensor_lifetimes (pipeline : Pipeline Tensor Content Backend Mem Pool) (index : Int)
    (allocInput : Bool) (infos : List (OpCacheInfo Tensor Backend))
    (start : State Tensor Content Backend Mem Pool) (before after : List (Command Tensor Backend))
    (command : Command Tensor Backend) (isSplit : commands infos = before ++ command :: after)
    (state ready : State Tensor Content Backend Mem Pool)
    (hasRun : pipeline.resizeCommands index allocInput before
          (pipeline.counted infos start) = .ok state)
    (prepared : pipeline.prepare index allocInput command state = .ok ready) :
    (∀ t mem, state.mem t = some mem → ready.mem t = some mem) ∧ (∀ t,
          (∃ later ∈ after, t ∈ later.workInputs) →
            (pipeline.freeInputs index allocInput command ready).mem t = ready.mem t) ∧
        (∀ t ∈ command.workInputs, (∀ later ∈ after, t ∉ later.workInputs) →
              pipeline.Releasable index allocInput infos start t →
                (pipeline.freeInputs index allocInput command ready).mem t =
                  none) ∧
          (∀ t, t ∉ command.workInputs →
            (pipeline.freeInputs index allocInput command ready).mem t = ready.mem t) ∧
            ∀ t, pipeline.Intermediate index allocInput infos start t →
              ((pipeline.freeInputs index allocInput command ready).mem t ≠
                  none ↔
                (∃ earlier ∈ before ++ [command], t ∈ earlier.workOutputs) ∧
                  ∃ later ∈ after, t ∈ later.workInputs) := by
  have running := (ran_from_start isSplit hasRun).1
  have allocated := (prepare_spec prepared).1
  have stepped := @freeInputs_stepped _ _ _ _ _ _ _ pipeline index allocInput infos start
      command before after isSplit ready (running.allocated allocated)
  refine ⟨allocated.mem, fun t isLater => stepped.keeps t (Or.inr (mem_reads.mpr isLater)),
      fun t isRead isLast => stepped.releases t isRead ?_,
      fun t notRead => stepped.keeps t (Or.inl notRead), fun t intermediate => ?_⟩
  · rw [mem_reads]
    rintro ⟨later, isAfter, isInput⟩
    exact isLast later isAfter isInput
  · have isSplit' : commands infos = (before ++ [command]) ++ after := by
      rw [isSplit, append_assoc]
      rfl
    refine intermediate.lives isSplit' ?_
    have isRun : pipeline.resizeCommands index allocInput (before ++ [command])
            (pipeline.counted infos start) =
          pipeline.resizeCommand index allocInput state command >>= pure := by
      rw [resizeCommands, foldlM_append]
      rw [resizeCommands] at hasRun
      rw [hasRun]
      show List.foldlM (pipeline.resizeCommand index allocInput) state [command] = _
      rw [foldlM_cons]
      rfl
    rw [isRun, resizeCommand, prepared]
    rfl

/-! ## Two commands in a row -/

/-- Three tensors with descriptions of their own; memory is numbered. -/
def twoInRow : Pipeline Nat Nat Unit Nat Nat where
  content := id
  isHandle := fun _ => false
  mOutputStatic := false
  onResizeBegin := id
  onAcquire := fun pool _ _ _ => (some pool, pool + 1)
  onReset := fun pool _ => pool
  onResize := fun pool _ => (NO_ERROR, pool)
  onResizeEnd := fun pool => (NO_ERROR, pool)

/-- The second command reads twice what the first one writes. -/
def twoCommands : List (OpCacheInfo Nat Unit) :=
  [⟨false, [⟨[0], [1], 0, (), true⟩]⟩, ⟨false, [⟨[1, 1], [2], 0, (), true⟩]⟩]

def nothingYet : State Nat Nat Unit Nat Nat where
  describe := fun c =>
    ⟨.MEMORY_BACKEND, 7, if c = 2 then .OUTPUT else .NORMAL, 0⟩
  backend := fun _ => none
  mem := fun _ => none
  pool := 0

theorem intermediate_twoInRow : twoInRow.Intermediate 0 true twoCommands nothingYet 1 where
  releasable :=
    { group := rfl, notHost := nofun, notOutside := nofun,
      usage := ⟨rfl, nofun, nofun, nofun⟩,
      hasBackend := fun impossible => absurd rfl impossible,
      ownsDescribe := fun _ _ same => same }
  empty := rfl
  produced :=
    ⟨[], [⟨[1, 1], [2], 0, (), true⟩], ⟨[0], [1], 0, (), true⟩, rfl, by decide, rfl,
      by decide, by decide, by decide⟩

/-- What the first command writes is there behind it. -/
theorem allocForTensor_lifetimes_twoInRow :
    ∃ state ready, twoInRow.resizeCommands 0 true [] (twoInRow.counted twoCommands nothingYet) =
          .ok state ∧
        twoInRow.prepare 0 true ⟨[0], [1], 0, (), true⟩ state = .ok ready ∧
          (twoInRow.freeInputs 0 true ⟨[0], [1], 0, (), true⟩ ready).mem 1 ≠ none := by
  refine ⟨_, _, rfl, rfl, ?_⟩
  have lifetimes := allocForTensor_lifetimes twoInRow 0 true twoCommands nothingYet []
      [⟨[1, 1], [2], 0, (), true⟩] ⟨[0], [1], 0, (), true⟩ rfl _ _ rfl rfl
  exact (lifetimes.2.2.2.2 1 intermediate_twoInRow).mpr (by decide)

/-! ## Recycling -/

omit [DecidableEq Content] in
variable (pipeline) in
theorem foldl_recycle (tensors : List Tensor) (state : State Tensor Content Backend Mem Pool) :
    let after := tensors.foldl (fun state t =>
      if pipeline.getTensorStorageType t state = .DYNAMIC then pipeline.resetMem t state
      else state) state
    after.describe = state.describe ∧ ∀ t,
      state.mem t = none ∨ t ∈ tensors ∧ pipeline.getTensorStorageType t state = .DYNAMIC →
        after.mem t = none := by
  induction tensors generalizing state with
  | nil => simp
  | cons first tensors ih =>
    rw [foldl_cons]
    split_ifs with isDynamic
    · have same := (resetMem_keeps pipeline first state).1
      refine ⟨(ih _).1.trans same, fun t empty => (ih _).2 t ?_⟩
      grind [resetMem_apply, getTensorStorageType, getDescribe]
    · exact ⟨(ih _).1, fun t empty => (ih _).2 t (by grind)⟩

/-- Allocating leaves no dynamic memory with what the commands of the group name. -/
theorem allocForTensor_recycles
    (isOk : pipeline.allocForTensor index allocInput infos start = .ok final)
    {command : Command Tensor Backend} (isIn : command ∈ infos.flatMap OpCacheInfo.command)
    (sameGroup : command.group = index) {t : Tensor}
    (isNamed : t ∈ command.workOutputs ++ command.workInputs)
    (isDynamic : pipeline.getTensorStorageType t start = .DYNAMIC) : final.mem t = none := by
  rcases bind_eq_ok isOk with ⟨middle, hasRun, isLast⟩
  have running := (ran_from_start (append_nil _).symm hasRun).1
  simp only at isLast
  split at isLast
  · cases isLast
  · obtain rfl := Except.ok.inj isLast
    rw [getTensorStorageType, getDescribe, ← (running.describe _).2.1] at isDynamic
    unfold recycleDynamicMemory
    rw [← foldl_flatMap]
    exact (foldl_recycle pipeline _ middle).2 t (Or.inr ⟨mem_flatMap.mpr
      ⟨command, mem_filter.mpr ⟨isIn, decide_eq_true sameGroup⟩, isNamed⟩, isDynamic⟩)

/-- What the first command writes is gone in the end. -/
theorem allocForTensor_recycles_twoInRow :
    ∃ final, twoInRow.allocForTensor 0 true twoCommands nothingYet = .ok final ∧
        final.mem 1 = none := by
  have isOk : twoInRow.allocForTensor 0 true twoCommands nothingYet = .ok _ := rfl
  exact ⟨_, isOk, allocForTensor_recycles isOk mem_cons_self rfl mem_cons_self rfl⟩

end Pipeline

end Mnn.Core.ResizePlanner
