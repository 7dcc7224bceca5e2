import Mnn.Cpu.KVLengths

/-!
# Where the rows of the KV cache lie

`keyIndex` and `valueIndex` give every row and dimension an element of its own,
inside the buffer of the head.  What the loops write is said once, as the set
of their writes, in terms of these two addresses.
-/

variable {index : Nat → Nat → Nat}

namespace Mnn.Cpu

open Mnn.Core
open List
open Nat

namespace KVConfig

variable (config : KVConfig)

/-! ## Addresses -/

theorem keyIndex_eq (seq dim : Nat) :
    config.keyIndex seq dim = ((seq / config.hP * upDiv config.mHeadDim config.lP +
          dim / config.lP) * config.hP + seq % config.hP) * config.lP +
        dim % config.lP := by
  rw [keyIndex, roundUp_eq]
  ring

theorem valueIndex_eq (upper seq dim : Nat) :
    config.valueIndex upper seq dim =
      (((seq / upper * upDiv config.mHeadDim config.hP + dim / config.hP) *
          upDiv upper config.lP + seq % upper / config.lP) * config.hP +
        dim % config.hP) * config.lP + seq % upper % config.lP := by
  rw [valueIndex]
  ring

variable {config} {seq seq' dim dim' mMaxLength upper : Nat}

theorem keyIndex_inj (inside : dim < config.mHeadDim) (inside' : dim' < config.mHeadDim)
    (same : config.keyIndex seq dim = config.keyIndex seq' dim') :
    seq = seq' ∧ dim = dim' := by
  have lP_pos := config.lP_pos
  have hP_pos := config.hP_pos
  rw [keyIndex_eq, keyIndex_eq] at same
  rcases digits_inj (mod_lt _ lP_pos) (mod_lt _ lP_pos) same with
    ⟨same, dimLow⟩
  rcases digits_inj (mod_lt _ hP_pos) (mod_lt _ hP_pos) same with
    ⟨same, seqLow⟩
  rcases digits_inj (div_lt_upDiv lP_pos inside) (div_lt_upDiv lP_pos inside') same with
    ⟨seqHigh, dimHigh⟩
  constructor
  · rw [← div_add_mod seq config.hP, seqHigh, seqLow, div_add_mod]
  · rw [← div_add_mod dim config.lP, dimHigh, dimLow, div_add_mod]

theorem keyIndex_lt (less : seq < mMaxLength) (inside : dim < config.mHeadDim) :
    config.keyIndex seq dim < config.keySizePerHead mMaxLength := by
  have lP_pos := config.lP_pos
  have hP_pos := config.hP_pos
  rw [keyIndex_eq, keySizePerHead, roundUp_eq]
  calc
    _ < upDiv mMaxLength config.hP * upDiv config.mHeadDim config.lP * config.hP * config.lP :=
      digits_lt (digits_lt (digits_lt (div_lt_upDiv hP_pos less) (div_lt_upDiv lP_pos inside))
          (mod_lt _ hP_pos))
        (mod_lt _ lP_pos)
    _ = _ := by ring

theorem valueIndex_inj (positive : 0 < upper)
    (inside : dim < config.mHeadDim) (inside' : dim' < config.mHeadDim)
    (same : config.valueIndex upper seq dim = config.valueIndex upper seq' dim') :
    seq = seq' ∧ dim = dim' := by
  have lP_pos := config.lP_pos
  have hP_pos := config.hP_pos
  have inChunk := fun row : Nat => mod_lt row positive
  rw [valueIndex_eq, valueIndex_eq] at same
  rcases digits_inj (mod_lt _ lP_pos) (mod_lt _ lP_pos) same with
    ⟨same, seqLow⟩
  rcases digits_inj (mod_lt _ hP_pos) (mod_lt _ hP_pos) same with
    ⟨same, dimLow⟩
  rcases digits_inj (div_lt_upDiv lP_pos (inChunk seq))
        (div_lt_upDiv lP_pos (inChunk seq')) same with
    ⟨same, seqMiddle⟩
  rcases digits_inj (div_lt_upDiv hP_pos inside) (div_lt_upDiv hP_pos inside') same with
    ⟨seqHigh, dimHigh⟩
  have seqMod : seq % upper = seq' % upper := by
    rw [← div_add_mod (seq % upper) config.lP, seqMiddle, seqLow, div_add_mod]
  constructor
  · rw [← div_add_mod seq upper, seqHigh, seqMod, div_add_mod]
  · rw [← div_add_mod dim config.hP, dimHigh, dimLow, div_add_mod]

theorem valueIndex_lt (positive : 0 < upper)
    (less : seq < mMaxLength) (inside : dim < config.mHeadDim) :
    config.valueIndex upper seq dim < config.valueSizePerHead mMaxLength upper := by
  have lP_pos := config.lP_pos
  have hP_pos := config.hP_pos
  rw [valueIndex_eq, valueSizePerHead, roundUp_eq, roundUp_eq]
  calc
    _ < upDiv mMaxLength upper * upDiv config.mHeadDim config.hP *
          upDiv upper config.lP * config.hP * config.lP :=
      digits_lt (digits_lt (digits_lt (digits_lt (div_lt_upDiv positive less)
              (div_lt_upDiv hP_pos inside))
            (div_lt_upDiv lP_pos (mod_lt _ positive)))
          (mod_lt _ hP_pos))
        (mod_lt _ lP_pos)
    _ = _ := by ring

end KVConfig

variable {first second third : Buffer T}

namespace CPUKVCacheManager

variable {T : Type*} [Zero T] {config : KVConfig}

/-! ## Lists of writes -/

omit [Zero T] in
theorem writeAll_append (first last : List (Nat × T)) (buffer : Buffer T) :
    writeAll (first ++ last) buffer = writeAll last (writeAll first buffer) :=
  foldl_append

omit [Zero T] in
theorem writeAll_other {writes : List (Nat × T)} (buffer : Buffer T) {address : Nat}
    (other : ∀ value, (address, value) ∉ writes) :
    writeAll writes buffer address = buffer address := by
  induction writes generalizing buffer with
  | nil => rfl
  | cons write rest ih =>
    have notHere : address ≠ write.1 := by
      rintro rfl
      exact other write.2 mem_cons_self
    have later := ih (Function.update buffer write.1 write.2)
        fun value member => other value (mem_cons_of_mem _ member)
    exact later.trans (Function.update_of_ne notHere ..)

omit [Zero T] in
theorem writeAll_of_mem {writes : List (Nat × T)} {buffer : Buffer T} {address : Nat} {value : T}
    (agree : ∀ other, (address, other) ∈ writes → other = value)
    (member : (address, value) ∈ writes) :
    writeAll writes buffer address = value := by
  induction writes generalizing buffer with
  | nil => cases member
  | cons write rest ih =>
    have agreeLater : ∀ other, (address, other) ∈ rest → other = value :=
      fun other later => agree other (mem_cons_of_mem _ later)
    by_cases again : (address, value) ∈ rest
    · exact ih agreeLater again
    · have notLater : ∀ other, (address, other) ∉ rest := by
        intro other later
        rw [agreeLater other later] at later
        exact again later
      have untouched := writeAll_other (Function.update buffer write.1 write.2) notLater
      rcases mem_cons.mp member with rfl | later
      · exact untouched.trans (Function.update_self ..)
      · exact absurd later again

/--
Writes that are exactly the rows from `past` on, with the values of `row`.
-/
def WritesRows (index : Nat → Nat → Nat) (mHeadDim past seqLen : Nat)
    (row : Nat → Nat → T) (writes : List (Nat × T)) : Prop :=
  ∀ address value, (address, value) ∈ writes ↔
    ∃ i dim, i < seqLen ∧ dim < mHeadDim ∧ address = index (past + i) dim ∧ value = row i dim

/-- Different rows and dimensions lie apart. -/
def Separates (index : Nat → Nat → Nat) (mHeadDim : Nat) : Prop :=
  ∀ seq seq' dim dim', dim < mHeadDim → dim' < mHeadDim →
    index seq dim = index seq' dim' → seq = seq' ∧ dim = dim'

/-- The rows in a buffer, after rows were added to those before. -/
structure AddsRows
    (index : Nat → Nat → Nat) (mHeadDim past seqLen : Nat)
    (row : Nat → Nat → T) (before after : Buffer T) : Prop where
  old : ∀ seq dim, seq < past → dim < mHeadDim → after (index seq dim) = before (index seq dim)
  new : ∀ i dim, i < seqLen → dim < mHeadDim → after (index (past + i) dim) = row i dim

omit [Zero T] in
variable {row : Nat → Nat → T}

theorem WritesRows.adds {mHeadDim past seqLen : Nat} {writes : List (Nat × T)}
    (rows : WritesRows index mHeadDim past seqLen row writes)
    (separates : Separates index mHeadDim) (buffer : Buffer T) :
    AddsRows index mHeadDim past seqLen row buffer (writeAll writes buffer) := by
  constructor
  · intro seq dim earlier inside
    apply writeAll_other
    intro value member
    rcases (rows _ value).mp member with ⟨i, other, -, otherInside, same, -⟩
    have sameSeq := (separates _ _ _ _ inside otherInside same).1
    omega
  · intro i dim less inside
    apply writeAll_of_mem
    · intro value member
      rcases (rows _ value).mp member with
        ⟨j, other, -, otherInside, same, rfl⟩
      rcases separates _ _ _ _ inside otherInside same with ⟨sameSeq, rfl⟩
      rw [add_left_cancel sameSeq]
    · exact (rows _ _).mpr ⟨i, dim, less, inside, rfl, rfl⟩

/-! ## The writes of the loops -/

/-- Loops over full groups and over the rest go through all numbers. -/
theorem mem_groups {α : Type*} {count width : Nat} (positive : 0 < width)
    (entry : Nat → Nat → α) {element : α} :
    element ∈ ((List.range (count / width)).flatMap fun g =>
            (List.range width).map fun c => entry g c) ++
          ((List.range (count % width)).map fun c =>
            entry (count / width) c) ↔
      ∃ j, j < count ∧ element = entry (j / width) (j % width) := by
  have division := div_add_mod count width
  simp only [mem_append, mem_flatMap, mem_map, mem_range]
  constructor
  · rintro (⟨g, gLess, c, cLess, rfl⟩ | ⟨c, cLess, rfl⟩)
    · refine ⟨g * width + c, ?_, ?_⟩
      · calc
          g * width + c < count / width * width := digits_lt gLess cLess
          _ ≤ count := div_mul_le_self ..
      · rw [mul_comm, mul_add_div positive, mul_add_mod,
          div_eq_of_lt cLess, mod_eq_of_lt cLess, add_zero]
    · have cWidth := lt_trans cLess (mod_lt count positive)
      refine ⟨width * (count / width) + c, by omega, ?_⟩
      rw [mul_add_div positive, mul_add_mod, div_eq_of_lt cWidth,
        mod_eq_of_lt cWidth, add_zero]
  · rintro ⟨j, less, rfl⟩
    have parts := div_add_mod j width
    by_cases full : j / width < count / width
    · exact Or.inl ⟨_, full, _, mod_lt j positive, rfl⟩
    · have sameGroup : j / width = count / width :=
        Nat.le_antisymm (Nat.div_le_div_right (Nat.le_of_lt less)) (Nat.le_of_not_lt full)
      refine Or.inr ⟨j % width, ?_, by rw [sameGroup]⟩
      rw [sameGroup] at parts
      omega

/-- The row of keys of one head that is added at a token. -/
def keyRow (config : KVConfig) (key : Buffer T) (kvHead i dim : Nat) : T := key
    (i * config.mKvNumHead * config.mHeadDim + kvHead * config.mHeadDim + dim)

theorem processKey_rows (mPastLength : Nat) (key : Buffer T) (seqLen kvHead : Nat) :
    WritesRows config.keyIndex config.mHeadDim mPastLength seqLen (keyRow config key kvHead)
      (processKey config mPastLength key seqLen kvHead) := by
  intro address value
  unfold processKey
  simp only
  split
  · next fast =>
    rcases fast with ⟨-, hPFour, lPOne, pastAligned, seqAligned, -⟩
    have noRest : ¬seqLen - seqLen / 4 * 4 > 0 := by
      rw [hPFour] at seqAligned
      omega
    rw [hPFour] at pastAligned seqAligned
    simp only [mnnPackC4, if_neg noRest, append_nil, mem_flatMap,
      mem_map, mem_range, Prod.mk.injEq, hPFour]
    constructor
    · rintro ⟨z, zLess, x, xLess, y, yLess, rfl, rfl⟩
      refine ⟨z * 4 + y, x, by omega, xLess, ?_, ?_⟩
      · have high : (mPastLength + (z * 4 + y)) / 4 = mPastLength / 4 + z := by
          omega
        have low : (mPastLength + (z * 4 + y)) % 4 = y := by
          omega
        rw [KVConfig.keyIndex, hPFour, lPOne, high, low, Nat.div_one, Nat.mod_one]
        ring
      · rw [keyRow]
        congr 1
        ring
    · rintro ⟨i, dim, iLess, dimLess, rfl, rfl⟩
      refine ⟨i / 4, by omega, dim, dimLess, i % 4, mod_lt _ (by decide), ?_, ?_⟩
      · have high : (mPastLength + i) / 4 = mPastLength / 4 + i / 4 := by
          omega
        have low : (mPastLength + i) % 4 = i % 4 := by
          omega
        rw [KVConfig.keyIndex, hPFour, lPOne, high, low, Nat.div_one, Nat.mod_one]
        ring
      · rw [keyRow, div_add_mod']
        congr 1
        ring
  · simp only [mem_flatMap, mem_range]
    constructor
    · rintro ⟨i, iLess, member⟩
      rcases (mem_groups config.lP_pos _).mp member with ⟨j, jLess, isEntry⟩
      rcases Prod.mk.inj isEntry with ⟨rfl, rfl⟩
      refine ⟨i, j, iLess, jLess, ?_, ?_⟩
      · rw [KVConfig.keyIndex]
        ring
      · rw [keyRow, div_add_mod']
    · rintro ⟨i, dim, iLess, dimLess, rfl, rfl⟩
      refine ⟨i, iLess, (mem_groups config.lP_pos _).mpr ⟨dim, dimLess, ?_⟩⟩
      rw [div_add_mod', keyRow, KVConfig.keyIndex]
      congr 1
      ring

/-- The row of values of one head that is added at a token. -/
def valueRowAt (config : KVConfig) (rows : Rows T) (seqLen kvHead i dim : Nat) : T :=
  loadValue config rows seqLen i (kvHead * config.mHeadDim + dim)

omit [Zero T] in
theorem loadValue_c4 {rows : Rows T} (isC4 : rows.valueC4 = true) {seqLen i channel : Nat}
    (less : i < seqLen) :
    loadValue config rows seqLen i channel =
      rows.value (c4Offset i channel seqLen config.pack) := by
  rw [loadValue, if_pos isC4]
  split
  · next single =>
    subst single
    have first : i = 0 := lt_one_iff.mp less
    rw [first, c4Offset, mul_one, zero_mul, add_zero, div_add_mod']
  · rfl

omit [Zero T] in
theorem mem_copyRuns {upper : Nat} (positive : 0 < upper) (lPOne : config.lP = 1)
    (dimAligned : config.mHeadDim % config.hP = 0) {value : Buffer T} {channelBase seqLen : Nat}
    (baseAligned : channelBase % config.hP = 0)
    {fuel srcToken dstToken : Nat} (enough : seqLen - srcToken ≤ fuel)
    {address : Nat} {element : T} :
    (address, element) ∈ copyRuns config upper value channelBase seqLen fuel srcToken dstToken ↔
      ∃ i dim, srcToken + i < seqLen ∧ dim < config.mHeadDim ∧
        address = config.valueIndex upper (dstToken + i) dim ∧
        element = value (c4Offset (srcToken + i) (channelBase + dim) seqLen config.hP) := by
  have hP_pos := config.hP_pos
  induction fuel generalizing srcToken dstToken with
  | zero =>
    constructor
    · exact nofun
    · rintro ⟨i, dim, less, -⟩
      omega
  | succ fuel ih =>
    unfold copyRuns
    split
    · next less =>
      have inChunk := mod_lt dstToken positive
      let run := min (seqLen - srcToken) (upper - dstToken % upper)
      have runPositive : 0 < run := by
        simp only [run]
        omega
      have runSeq : srcToken + run ≤ seqLen := by
        simp only [run]
        omega
      have runChunk : dstToken % upper + run ≤ upper := by
        simp only [run]
        omega
      have isEntry :
          ∀ i dim, i < run → dim < config.mHeadDim → config.valueIndex upper (dstToken + i) dim =
                dstToken / upper * (upDiv upper config.lP * (config.lP * config.hP) *
                      upDiv config.mHeadDim config.hP) +
                  dim / config.hP * (upDiv upper config.lP * (config.lP * config.hP)) +
                  dstToken % upper * config.hP +
                  (i * config.hP + dim % config.hP) ∧
              c4Offset (srcToken + i) (channelBase + dim) seqLen config.hP =
                ((channelBase / config.hP + dim / config.hP) * seqLen +
                  srcToken) * config.hP + (i * config.hP + dim % config.hP) := by
        intro i dim iLess dimLess
        have inside : dstToken % upper + i < upper := by
          omega
        have parts := div_add_mod dstToken upper
        have high : (dstToken + i) / upper = dstToken / upper := by
          rw [← parts, add_assoc, mul_add_div positive,
            div_eq_of_lt inside, mul_add_div positive,
            div_eq_of_lt inChunk]
        have low : (dstToken + i) % upper = dstToken % upper + i := by
          rw [← parts, add_assoc, mul_add_mod, mod_eq_of_lt inside,
            mul_add_mod, mod_eq_of_lt inChunk]
        constructor
        · rw [KVConfig.valueIndex]
          simp only [high, low, lPOne, Nat.div_one, Nat.mod_one]
          ring
        · have base := div_add_mod channelBase config.hP
          rw [baseAligned, add_zero] at base
          have channelHigh :
              (channelBase + dim) / config.hP = channelBase / config.hP + dim / config.hP := by
            rw [← base, Nat.mul_add_div hP_pos, Nat.mul_div_cancel_left _ hP_pos]
          have channelLow : (channelBase + dim) % config.hP = dim % config.hP := by
            rw [← base, mul_add_mod]
          rw [c4Offset, channelHigh, channelLow]
          ring
      simp only [mem_append, mem_flatMap, mem_map, mem_range, Prod.mk.injEq,
        upDiv_of_mod_eq_zero hP_pos dimAligned]
      have enoughLater : seqLen - (srcToken + run) ≤ fuel := by
        omega
      have later := @ih (srcToken + run) (dstToken + run) enoughLater
      simp only [run] at later
      simp only [later]
      have dimFull : config.mHeadDim / config.hP * config.hP = config.mHeadDim :=
        Nat.div_mul_cancel (Nat.dvd_of_mod_eq_zero dimAligned)
      constructor
      · rintro (⟨q, qLess, x, xLess, rfl, rfl⟩ | ⟨i, dim, iLess, dimLess, rfl, rfl⟩)
        · have iLess : x / config.hP < run := (div_lt_iff_lt_mul hP_pos).mpr xLess
          have low := mod_lt x hP_pos
          have dimLess : q * config.hP + x % config.hP < config.mHeadDim := by
            rw [← dimFull]
            exact digits_lt qLess low
          have dimHigh : (q * config.hP + x % config.hP) / config.hP = q := by
            rw [mul_comm, mul_add_div hP_pos, div_eq_of_lt low, add_zero]
          have dimLow : (q * config.hP + x % config.hP) % config.hP = x % config.hP := by
            rw [mul_comm, mul_add_mod, mod_mod]
          rcases isEntry _ _ iLess dimLess with ⟨isAddress, isOffset⟩
          refine ⟨x / config.hP, q * config.hP + x % config.hP, by omega, dimLess, ?_, ?_⟩
          · rw [isAddress, dimHigh, dimLow, div_add_mod',
              upDiv_of_mod_eq_zero hP_pos dimAligned]
          · rw [isOffset, dimHigh, dimLow, div_add_mod']
        · refine ⟨run + i, dim, by omega, dimLess, ?_, ?_⟩
          · rw [← add_assoc]
          · rw [← add_assoc]
      · rintro ⟨i, dim, iLess, dimLess, rfl, rfl⟩
        by_cases inRun : i < run
        · left
          rcases isEntry i dim inRun dimLess with ⟨isAddress, isOffset⟩
          refine ⟨dim / config.hP, ?_, i * config.hP + dim % config.hP,
              digits_lt inRun (mod_lt _ hP_pos), ?_, ?_⟩
          · exact div_lt_div_of_lt_of_dvd (dvd_of_mod_eq_zero dimAligned) dimLess
          · rw [isAddress, upDiv_of_mod_eq_zero hP_pos dimAligned]
          · rw [isOffset]
        · right
          have shift : run + (i - run) = i := by
            omega
          refine ⟨i - run, dim, ?_, dimLess, ?_, ?_⟩
          · show srcToken + run + (i - run) < seqLen
            omega
          · show _ = config.valueIndex upper (dstToken + run + (i - run)) dim
            rw [add_assoc, shift]
          · show _ = value (c4Offset (srcToken + run + (i - run)) _ _ _)
            rw [add_assoc, shift]
    · next done =>
      constructor
      · exact nofun
      · rintro ⟨i, dim, less, -⟩
        omega

omit [Zero T] in
theorem AddsRows.trans {mHeadDim past count more : Nat}
    (adds : AddsRows index mHeadDim past count row first second)
    (addsMore : AddsRows index mHeadDim (past + count) more
        (fun i => row (count + i)) second third) :
    AddsRows index mHeadDim past (count + more) row first third := by
  constructor
  · intro seq dim earlier inside
    calc
      third (index seq dim) = second (index seq dim) :=
        addsMore.old seq dim (Nat.lt_add_right count earlier) inside
      _ = first (index seq dim) := adds.old seq dim earlier inside
  · intro i dim less inside
    by_cases before : i < count
    · calc
        third (index (past + i) dim) = second (index (past + i) dim) :=
          addsMore.old _ dim (Nat.add_lt_add_left before past) inside
        _ = row i dim := adds.new i dim before inside
    · have shift : count + (i - count) = i := by
        omega
      have added := addsMore.new (i - count) dim (by omega) inside
      rwa [add_assoc, shift] at added

omit [Zero T] in
theorem AddsRows.of_kept {mHeadDim past seqLen : Nat}
    (kept : ∀ seq dim, seq < past → dim < mHeadDim → second (index seq dim) = first (index seq dim))
    (adds : AddsRows index mHeadDim past seqLen row second third) :
    AddsRows index mHeadDim past seqLen row first third := by
  constructor
  · intro seq dim earlier inside
    exact (adds.old seq dim earlier inside).trans (kept seq dim earlier inside)
  · exact adds.new

theorem tile_not_earlier {upper : Nat} (positive : 0 < upper) {row seq dim g x : Nat}
    (begins : row % upper % config.lP = 0) (earlier : seq < row) (inside : dim < config.mHeadDim)
    (gLess : g < upDiv config.mHeadDim config.hP) (xLess : x < config.lP * config.hP) :
    config.valueIndex upper seq dim ≠ row / upper *
            (upDiv upper config.lP * (config.lP * config.hP) * upDiv config.mHeadDim config.hP) +
          row % upper / config.lP * (config.lP * config.hP) +
        g * (upDiv upper config.lP * (config.lP * config.hP)) + x := by
  intro same
  have lP_pos := config.lP_pos
  have hP_pos := config.hP_pos
  have low : dim % config.hP * config.lP + seq % upper % config.lP < config.lP * config.hP := by
    rw [mul_comm config.lP]
    exact digits_lt (mod_lt _ hP_pos) (mod_lt _ lP_pos)
  have digits :
      ((seq / upper * upDiv config.mHeadDim config.hP + dim / config.hP) *
              upDiv upper config.lP + seq % upper / config.lP) *
            (config.lP * config.hP) +
          (dim % config.hP * config.lP + seq % upper % config.lP) =
        ((row / upper * upDiv config.mHeadDim config.hP + g) *
              upDiv upper config.lP + row % upper / config.lP) *
            (config.lP * config.hP) + x := by
    calc
      _ = config.valueIndex upper seq dim := by
        rw [KVConfig.valueIndex_eq]
        ring
      _ = _ := same
      _ = _ := by
        ring
  have high := (digits_inj low xLess digits).1
  rcases digits_inj (div_lt_upDiv lP_pos (mod_lt seq positive))
        (div_lt_upDiv lP_pos (mod_lt row positive)) high with
    ⟨higher, sameTile⟩
  have sameChunk := (digits_inj (div_lt_upDiv hP_pos inside) gLess higher).1
  have seqParts := div_add_mod seq upper
  have rowParts := div_add_mod row upper
  have seqTile := div_add_mod (seq % upper) config.lP
  have rowTile := div_add_mod (row % upper) config.lP
  rw [sameChunk] at seqParts
  rw [sameTile] at seqTile
  omega

omit [Zero T] in
theorem mem_rowWrites (upper row : Nat) (element : Nat → T) {address : Nat} {value : T} :
    let weightStride2 := config.lP * config.hP
    let weightStride1 := upDiv upper config.lP * weightStride2
    let weightStride0 := weightStride1 * upDiv config.mHeadDim config.hP
    let idxInner :=
      row / upper * weightStride0 +
          row % upper / config.lP * weightStride2 + row % upper % config.lP
    let fullGroups := config.mHeadDim / config.hP
    (address, value) ∈ ((List.range fullGroups).flatMap fun g =>
            (List.range config.hP).map fun c =>
              (g * weightStride1 + idxInner + c * config.lP, element (g * config.hP + c))) ++
          ((List.range (config.mHeadDim % config.hP)).map fun c =>
            let j := fullGroups * config.hP + c
            (j / config.hP * weightStride1 + j % config.hP * config.lP + idxInner, element j)) ↔
      ∃ dim, dim < config.mHeadDim ∧
        address = config.valueIndex upper row dim ∧ value = element dim := by
  intro weightStride2 weightStride1 weightStride0 idxInner fullGroups
  have hP_pos := config.hP_pos
  let entry := fun g c : Nat =>
    (g * weightStride1 + idxInner + c * config.lP, element (g * config.hP + c))
  have sameForm : ((List.range (config.mHeadDim % config.hP)).map fun c =>
          ((fullGroups * config.hP + c) / config.hP * weightStride1 +
              (fullGroups * config.hP + c) % config.hP * config.lP + idxInner,
            element (fullGroups * config.hP + c))) =
        (List.range (config.mHeadDim % config.hP)).map fun c =>
          entry (config.mHeadDim / config.hP) c := by
    apply map_congr_left
    intro c member
    have less : c < config.hP := lt_trans (mem_range.mp member) (mod_lt _ hP_pos)
    have high : (fullGroups * config.hP + c) / config.hP = fullGroups := by
      rw [mul_comm, mul_add_div hP_pos, div_eq_of_lt less, add_zero]
    have low : (fullGroups * config.hP + c) % config.hP = c := by
      rw [mul_comm, mul_add_mod, mod_eq_of_lt less]
    simp only [entry, high, low, fullGroups, add_right_comm]
  have isEntry :
      ∀ dim, entry (dim / config.hP) (dim % config.hP) =
          (config.valueIndex upper row dim, element dim) := by
    intro dim
    simp only [entry, div_add_mod', Prod.mk.injEq, and_true]
    simp only [KVConfig.valueIndex, weightStride0, weightStride1, weightStride2, idxInner]
    ring
  simp only
  rw [sameForm]
  refine (mem_groups hP_pos entry).trans ?_
  simp only [isEntry, Prod.mk.injEq]

theorem valueRow_adds {upper : Nat} (positive : 0 < upper) (mPastLength : Nat) (rows : Rows T)
    (seqLen kvHead i : Nat) (buffer : Buffer T) :
    AddsRows (config.valueIndex upper) config.mHeadDim (mPastLength + i) 1
      (fun _ => valueRowAt config rows seqLen kvHead i) buffer
      (writeAll (valueRow config mPastLength upper rows seqLen kvHead i) buffer) := by
  have separates : Separates (config.valueIndex upper) config.mHeadDim :=
    fun _ _ _ _ inside inside' same =>
      KVConfig.valueIndex_inj positive inside inside' same
  unfold valueRow
  simp only
  rw [writeAll_append]
  refine AddsRows.of_kept ?_ (WritesRows.adds ?_ separates _)
  · intro seq dim earlier inside
    apply writeAll_other
    intro value member
    split at member
    · next begins =>
      simp only [mem_flatMap, mem_map, mem_range, Prod.mk.injEq] at member
      rcases member with ⟨g, gLess, x, xLess, same, -⟩
      exact tile_not_earlier positive begins.2 earlier inside gLess xLess same.symm
    · nomatch member
  · intro address value
    refine (mem_rowWrites upper (mPastLength + i) fun j =>
        loadValue config rows seqLen i (kvHead * config.mHeadDim + j)).trans ?_
    constructor
    · rintro ⟨dim, inside, rfl, rfl⟩
      exact ⟨0, dim, one_pos, inside, rfl, rfl⟩
    · rintro ⟨i', dim, less, inside, rfl, rfl⟩
      refine ⟨dim, inside, ?_, rfl⟩
      rw [lt_one_iff.mp less]
      rfl

/-- The values of the new rows are written behind the rows that are there. -/
theorem processValue_adds {upper : Nat} (positive : 0 < upper) (mPastLength : Nat) (rows : Rows T)
    (seqLen kvHead : Nat) (buffer : Buffer T) :
    AddsRows (config.valueIndex upper) config.mHeadDim mPastLength seqLen
      (valueRowAt config rows seqLen kvHead) buffer
      (writeAll (processValue config mPastLength upper rows seqLen kvHead) buffer) := by
  unfold processValue
  split
  · next fast =>
    rcases fast with ⟨isC4, -, packed, -, lPOne, aligned, -⟩
    have baseAligned : kvHead * config.mHeadDim % config.hP = 0 := by
      rw [mul_mod, aligned, mul_zero, zero_mod]
    refine WritesRows.adds ?_ ?_ buffer
    · intro address value
      rw [mem_copyRuns positive lPOne aligned baseAligned (sub_le ..)]
      simp only [zero_add]
      constructor
      · rintro ⟨i, dim, less, inside, rfl, rfl⟩
        refine ⟨i, dim, less, inside, rfl, ?_⟩
        rw [valueRowAt, loadValue_c4 isC4 less, packed]
      · rintro ⟨i, dim, less, inside, rfl, rfl⟩
        refine ⟨i, dim, less, inside, rfl, ?_⟩
        rw [valueRowAt, loadValue_c4 isC4 less, packed]
    · exact fun _ _ _ _ inside inside' same =>
        KVConfig.valueIndex_inj positive inside inside' same
  · have prefixAdds : ∀ count, AddsRows (config.valueIndex upper) config.mHeadDim mPastLength count
            (valueRowAt config rows seqLen kvHead) buffer
            (writeAll ((List.range count).flatMap
                (valueRow config mPastLength upper rows seqLen kvHead))
              buffer) := by
      intro count
      induction count with
      | zero =>
        constructor
        · exact fun _ _ _ _ => rfl
        · exact fun i _ less => absurd less (not_lt_zero i)
      | succ count ih =>
        rw [range_succ, flatMap_append, writeAll_append, flatMap_singleton]
        have more := @valueRow_adds _ _ config _ positive mPastLength rows seqLen kvHead count
            (writeAll ((List.range count).flatMap
                (valueRow config mPastLength upper rows seqLen kvHead))
              buffer)
        refine ih.trans ?_
        constructor
        · exact more.old
        · intro i dim less inside
          rw [more.new i dim less inside, lt_one_iff.mp less]
          rfl
    exact prefixAdds seqLen

theorem processKey_adds (mPastLength : Nat) (key : Buffer T) (seqLen kvHead : Nat)
    (buffer : Buffer T) :
    AddsRows config.keyIndex config.mHeadDim mPastLength seqLen (keyRow config key kvHead) buffer
      (writeAll (processKey config mPastLength key seqLen kvHead) buffer) :=
  (processKey_rows mPastLength key seqLen kvHead).adds (fun _ _ _ _ inside inside' same =>
      KVConfig.keyIndex_inj inside inside' same)
    buffer

end CPUKVCacheManager

end Mnn.Cpu
