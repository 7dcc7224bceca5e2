import Mnn.Cpu.KVPrefix

/-!
# Which runs read a prefix back

Nothing in the files says how the run that wrote them laid out the values.  The
keys do not depend on it.  The values are found again exactly if the places
where they are looked for are those where they lie, and this is a matter of the
chunks, the packing and the lengths of the two runs.
-/

variable {upper seq count dim upper' mMaxLength : Nat}

namespace Mnn.Cpu

open Mnn.Core

namespace KVConfig

variable {config : KVConfig}

/-! ## The condition -/

/-- No row of the prefix comes behind a chunk that ends inside of a tile. -/
def Unpadded (config : KVConfig) (upper count : Nat) : Prop := count ≤ upper ∨ config.lP ∣ upper

/-- The layouts with these two lengths of a chunk agree on the prefix. -/
def ChunksAgree (config : KVConfig) (upper upper' count : Nat) : Prop :=
  upper = upper' ∨
    if config.mHeadDim ≤ config.hP then
      config.Unpadded upper count ∧ config.Unpadded upper' count
    else
      upDiv upper config.lP = upDiv upper' config.lP ∧ count ≤ upper ∧ count ≤ upper'

/-- The layout agrees with groups that are as long as the files. -/
def GroupsAgree (config : KVConfig) (mMaxLength count : Nat) : Prop :=
  let upper := config.upperKv mMaxLength
  let length := roundUp (config.oldLength mMaxLength) config.lP
  (config.mKvNumHead ≤ 1 ∨ length = upDiv mMaxLength upper * roundUp upper config.lP) ∧
    if config.mHeadDim ≤ config.hP then
      config.Unpadded upper count
    else
      length = roundUp upper config.lP ∧ count ≤ upper

/--
When a prefix of so many rows can be read back that a run with this capacity
wrote.
-/
def LayoutsAgree (writer reader : KVConfig) (mMaxLength count : Nat) : Prop :=
  writer.mKvNumHead = 0 ∨ writer.mHeadDim = 0 ∨ count = 0 ∨
    if reader.mUseFlashAttention then
      writer.ChunksAgree (writer.upperKv mMaxLength) reader.flashAttentionChunkKv count
    else
      writer.GroupsAgree mMaxLength count

/-! ## Chunks -/

/-- The address of the first element of a row, modulo the tile. -/
theorem valueIndex_zero_mod (upper seq : Nat) :
    config.valueIndex upper seq 0 % config.lP = seq % upper % config.lP := by
  rw [valueIndex_eq, Nat.mul_add_mod_self_right, Nat.mod_eq_of_lt (Nat.mod_lt _ config.lP_pos)]

theorem inGroup_zero_mod (seq : Nat) :
    DiskCache.inGroup config seq 0 % config.lP = seq % config.lP := by
  rw [DiskCache.inGroup, Nat.mul_add_mod_self_right, Nat.mod_eq_of_lt (Nat.mod_lt _ config.lP_pos)]

theorem valueIndex_firstChunk (less : seq < upper) (dim : Nat) :
    config.valueIndex upper seq dim = dim / config.hP * (roundUp upper config.lP * config.hP) +
        DiskCache.inGroup config seq dim :=
  CPUKVCacheManager.valueIndex_oneChunk less dim

/-- With a single group, chunks of full tiles lie one behind the other. -/
theorem valueIndex_unpadded (unpadded : config.Unpadded upper count)
    (less : seq < count) (inside : dim < config.hP) (single : upDiv config.mHeadDim config.hP = 1) :
    config.valueIndex upper seq dim = DiskCache.inGroup config seq dim := by
  rcases unpadded with short | divides
  · rw [valueIndex_firstChunk (lt_of_lt_of_le less short),
      Nat.div_eq_of_lt inside, zero_mul, zero_add]
  · rcases divides with ⟨tiles, rfl⟩
    have lP_pos := config.lP_pos
    have tileCount : upDiv (config.lP * tiles) config.lP = tiles := by
      rw [upDiv_of_mod_eq_zero lP_pos (Nat.mul_mod_right ..), Nat.mul_div_cancel_left _ lP_pos]
    have high :
        seq / (config.lP * tiles) * tiles + seq % (config.lP * tiles) / config.lP =
          seq / config.lP := by
      rw [← Nat.div_div_eq_div_mul, Nat.mod_mul_right_div_self]
      exact Nat.div_add_mod' ..
    have low : seq % (config.lP * tiles) % config.lP = seq % config.lP := Nat.mod_mul_right_mod ..
    rw [valueIndex_eq, DiskCache.inGroup, tileCount, single, mul_one,
      Nat.div_eq_of_lt inside, add_zero, high, low]

theorem upDiv_eq_one {x y : Nat} (positive : 0 < x) (le : x ≤ y) : upDiv x y = 1 := by
  refine Nat.div_eq_of_lt_le ?_ ?_ <;> omega

theorem one_lt_upDiv (several : config.hP < config.mHeadDim) :
    1 < upDiv config.mHeadDim config.hP := by
  have second := div_lt_upDiv config.hP_pos several
  rwa [Nat.div_self config.hP_pos] at second

/-- Behind a chunk, the next row begins a tile only if the chunk is full. -/
theorem not_secondChunk (several : config.hP < config.mHeadDim) (positive : 0 < upper) :
    config.valueIndex upper upper 0 ≠ DiskCache.inGroup config upper 0 := by
  intro same
  have lP_pos := config.lP_pos
  have full : upper % config.lP = 0 := by
    have sameMod :
        config.valueIndex upper upper 0 % config.lP =
          DiskCache.inGroup config upper 0 % config.lP :=
      congrArg (· % config.lP) same
    rw [valueIndex_zero_mod, inGroup_zero_mod, Nat.mod_self, Nat.zero_mod] at sameMod
    exact sameMod.symm
  have tiles : 0 < upDiv upper config.lP := Nat.zero_lt_of_lt (div_lt_upDiv lP_pos positive)
  rw [valueIndex_eq, DiskCache.inGroup, Nat.div_self positive, Nat.mod_self,
    full, ← upDiv_of_mod_eq_zero lP_pos full] at same
  simp only [Nat.zero_div, Nat.zero_mod, add_zero, one_mul] at same
  have noGroup := Nat.eq_of_mul_eq_mul_right config.hP_pos (Nat.eq_of_mul_eq_mul_right lP_pos same)
  have groups := one_lt_upDiv several
  have more : 1 * upDiv upper config.lP < upDiv config.mHeadDim config.hP * upDiv upper config.lP :=
    Nat.mul_lt_mul_of_pos_right groups tiles
  omega

/-- Chunks of which the shorter ones end inside of a tile are told apart. -/
theorem unpadded_of_agree (shorter : upper < upper') (dims : 0 < config.mHeadDim)
    (agree :
      ∀ seq < count, ∀ dim < config.mHeadDim,
        config.valueIndex upper' seq dim = config.valueIndex upper seq dim) :
    config.Unpadded upper count ∧ config.Unpadded upper' count := by
  have sameMod : ∀ seq < count, seq % upper' % config.lP = seq % upper % config.lP := by
    intro seq less
    rw [← valueIndex_zero_mod, ← valueIndex_zero_mod, agree seq less 0 dims]
  have first : config.Unpadded upper count := by
    by_cases short : count ≤ upper
    · exact Or.inl short
    · have last := sameMod upper (Nat.lt_of_not_le short)
      rw [Nat.mod_eq_of_lt shorter, Nat.mod_self, Nat.zero_mod] at last
      exact Or.inr (Nat.dvd_of_mod_eq_zero last)
  refine ⟨first, ?_⟩
  by_cases short : count ≤ upper'
  · exact Or.inl short
  · have last := sameMod upper' (Nat.lt_of_not_le short)
    have divides : config.lP ∣ upper := by
      rcases first with tooShort | divides
      · omega
      · exact divides
    rw [Nat.mod_self, Nat.zero_mod, Nat.mod_mod_of_dvd _ divides] at last
    exact Or.inr (Nat.dvd_of_mod_eq_zero last.symm)

/-- With several groups, no row may come behind the shorter chunk. -/
theorem short_of_agree (several : config.hP < config.mHeadDim)
    (shorter : upper < upper') (positive : 0 < upper)
    (agree :
      ∀ seq < count, ∀ dim < config.mHeadDim,
        config.valueIndex upper' seq dim = config.valueIndex upper seq dim) :
    count ≤ upper := by
  by_contra long
  have same := agree upper (Nat.lt_of_not_le long) 0 (Nat.zero_lt_of_lt several)
  rw [valueIndex_firstChunk shorter, Nat.zero_div, zero_mul, zero_add] at same
  exact not_secondChunk several positive same.symm

theorem upDiv_of_agree (several : config.hP < config.mHeadDim) (rows : 0 < count)
    (agree :
      ∀ seq < count, ∀ dim < config.mHeadDim,
        config.valueIndex upper' seq dim = config.valueIndex upper seq dim) :
    upDiv upper config.lP = upDiv upper' config.lP := by
  have same := agree 0 rows config.hP several
  rw [valueIndex_eq, valueIndex_eq, Nat.div_self config.hP_pos, Nat.mod_self] at same
  simp only [Nat.zero_div, Nat.zero_mod, zero_mul, zero_add,
    one_mul, add_zero] at same
  exact (Nat.eq_of_mul_eq_mul_right config.hP_pos
      (Nat.eq_of_mul_eq_mul_right config.lP_pos same)).symm

/-- When two lengths of a chunk put the rows of a prefix in the same places. -/
theorem chunksAgree_iff (positive : 0 < upper) (positive' : 0 < upper')
    (dims : 0 < config.mHeadDim) (rows : 0 < count) :
    (∀ seq < count, ∀ dim < config.mHeadDim,
        config.valueIndex upper' seq dim = config.valueIndex upper seq dim) ↔
      config.ChunksAgree upper upper' count := by
  unfold ChunksAgree
  constructor
  · intro agree
    by_cases same : upper = upper'
    · exact Or.inl same
    · right
      have agree' :
          ∀ seq < count, ∀ dim < config.mHeadDim,
            config.valueIndex upper seq dim = config.valueIndex upper' seq dim :=
        fun seq less dim inside => (agree seq less dim inside).symm
      split
      · rcases Nat.lt_or_gt_of_ne same with shorter | longer
        · exact unpadded_of_agree shorter dims agree
        · exact (unpadded_of_agree longer dims agree').symm
      · next several =>
        have several := Nat.lt_of_not_le several
        refine ⟨upDiv_of_agree several rows agree, ?_⟩
        rcases Nat.lt_or_gt_of_ne same with shorter | longer
        · have short := short_of_agree several shorter positive agree
          exact ⟨short, short.trans (le_of_lt shorter)⟩
        · have short := short_of_agree several longer positive' agree'
          exact ⟨short.trans (le_of_lt longer), short⟩
  · rintro (rfl | agree) seq less dim inside
    · rfl
    · split at agree
      · next single =>
        have group := upDiv_eq_one dims single
        have inGroup := lt_of_lt_of_le inside single
        rw [valueIndex_unpadded agree.1 less inGroup group,
          valueIndex_unpadded agree.2 less inGroup group]
      · rcases agree with ⟨sameTiles, short, short'⟩
        rw [valueIndex_firstChunk (lt_of_lt_of_le less short),
          valueIndex_firstChunk (lt_of_lt_of_le less short'), roundUp_eq,
          roundUp_eq, sameTiles]

/-! ## Groups -/

theorem valueSize_eq (mMaxLength upper : Nat) :
    config.valueSizePerHead mMaxLength upper = upDiv config.mHeadDim config.hP *
        (upDiv mMaxLength upper * roundUp upper config.lP * config.hP) := by
  rw [valueSizePerHead, roundUp_eq config.mHeadDim]
  ring

/-- The groups that a run without flash attention takes from the files. -/
theorem groupsAgree_iff (fits : count ≤ mMaxLength)
    (heads : 0 < config.mKvNumHead) (dims : 0 < config.mHeadDim) (rows : 0 < count) :
    (∀ h < config.mKvNumHead, ∀ seq < count, ∀ dim < config.mHeadDim,
        (h * upDiv config.mHeadDim config.hP + dim / config.hP) *
              (roundUp (config.oldLength mMaxLength) config.lP * config.hP) +
            DiskCache.inGroup config seq dim =
          config.writtenPlace mMaxLength h seq dim) ↔
      config.GroupsAgree mMaxLength count := by
  have lP_pos := config.lP_pos
  have hP_pos := config.hP_pos
  have upper_pos : 0 < config.upperKv mMaxLength := upperKv_pos (lt_of_lt_of_le rows fits)
  have groups_pos : 0 < upDiv config.mHeadDim config.hP :=
    Nat.zero_lt_of_lt (div_lt_upDiv hP_pos dims)
  unfold GroupsAgree writtenPlace
  simp only [valueSize_eq]
  obtain ⟨upper, isUpper⟩ : ∃ upper, config.upperKv mMaxLength = upper :=
    ⟨_, rfl⟩
  obtain ⟨length, isLength⟩ : ∃ length, roundUp (config.oldLength mMaxLength) config.lP = length :=
    ⟨_, rfl⟩
  rw [isUpper] at upper_pos ⊢
  rw [isLength]
  constructor
  · intro agree
    have agreeFirst :
        ∀ seq < count, ∀ dim < config.mHeadDim, dim / config.hP * (length * config.hP) +
              DiskCache.inGroup config seq dim =
            config.valueIndex upper seq dim := by
      intro seq less dim inside
      have place := agree 0 heads seq less dim inside
      rwa [zero_mul, zero_mul, zero_add, zero_add] at place
    constructor
    · by_cases single : config.mKvNumHead ≤ 1
      · exact Or.inl single
      · right
        have place := agree 1 (Nat.lt_of_not_le single) 0 rows 0 dims
        have origin : config.valueIndex upper 0 0 = 0 := by
          rw [valueIndex_firstChunk upper_pos, Nat.zero_div, zero_mul, DiskCache.inGroup]
          simp only [Nat.zero_div, Nat.zero_mod, zero_mul, add_zero]
        have inOrigin : DiskCache.inGroup config 0 0 = 0 := by
          rw [DiskCache.inGroup]
          simp only [Nat.zero_div, Nat.zero_mod, zero_mul, add_zero]
        rw [origin, inOrigin, Nat.zero_div, one_mul, one_mul,
          add_zero, add_zero, add_zero] at place
        exact Nat.eq_of_mul_eq_mul_right hP_pos (Nat.eq_of_mul_eq_mul_left groups_pos place)
    · have short : config.hP < config.mHeadDim → count ≤ upper := by
        intro several
        by_contra long
        have place := agreeFirst upper (Nat.lt_of_not_le long) 0 dims
        rw [Nat.zero_div, zero_mul, zero_add] at place
        exact not_secondChunk several upper_pos place.symm
      split
      · by_cases long : count ≤ upper
        · exact Or.inl long
        · right
          have place := agreeFirst upper (Nat.lt_of_not_le long) 0 dims
          rw [Nat.zero_div, zero_mul, zero_add] at place
          have sameMod :
              DiskCache.inGroup config upper 0 % config.lP =
                config.valueIndex upper upper 0 % config.lP :=
            congrArg (· % config.lP) place
          rw [valueIndex_zero_mod, inGroup_zero_mod, Nat.mod_self, Nat.zero_mod] at sameMod
          exact Nat.dvd_of_mod_eq_zero sameMod
      · next several =>
        have several := Nat.lt_of_not_le several
        refine ⟨?_, short several⟩
        have place := agreeFirst 0 rows config.hP several
        rw [valueIndex_firstChunk upper_pos, Nat.div_self hP_pos, one_mul, one_mul] at place
        exact Nat.eq_of_mul_eq_mul_right hP_pos (add_right_cancel place)
  · rintro ⟨headsAgree, rowsAgree⟩ h hLess seq less dim inside
    have sameHead :
        h * (upDiv config.mHeadDim config.hP * (length * config.hP)) =
          h * (upDiv config.mHeadDim config.hP *
            (upDiv mMaxLength upper * roundUp upper config.lP * config.hP)) := by
      rcases headsAgree with single | sameLength
      · have first : h = 0 := by
          omega
        rw [first, zero_mul, zero_mul]
      · rw [sameLength]
    have sameRow :
        dim / config.hP * (length * config.hP) + DiskCache.inGroup config seq dim =
          config.valueIndex upper seq dim := by
      split at rowsAgree
      · next single =>
        have inGroup := lt_of_lt_of_le inside single
        rw [valueIndex_unpadded rowsAgree less inGroup
          (upDiv_eq_one dims single), Nat.div_eq_of_lt inGroup, zero_mul,
          zero_add]
      · rw [valueIndex_firstChunk (lt_of_lt_of_le less rowsAgree.2), rowsAgree.1]
    rw [← sameRow, ← sameHead]
    ring

end KVConfig

namespace DiskCache

open CPUKVCacheManager

variable {T : Type*} [Zero T]

/--
What a run stores of a prefix is what a later run reads, from the files that the
first one has left.
-/
def Restores (T : Type*) [Zero T] (writer reader : KVConfig) (mMaxLength count : Nat) :
    Prop :=
  ∀ written : DiskCache T, Writes writer count written → written.mMaxLength = mMaxLength →
    validatePrefixCacheFiles written.files = true →
    ∀ read, Reads reader written.files count read →
    ∀ h < writer.mKvNumHead, ∀ seq < count, ∀ dim < writer.mHeadDim,
      read.keyAt reader h seq dim = written.keyAt writer h seq dim ∧
        read.valueAt reader h seq dim = written.valueAt writer h seq dim

variable {writer reader : KVConfig} {written : DiskCache T} {count : Nat}

omit [Zero T] in
theorem writtenPlace_eq (stores : Written writer count written) (h seq dim : Nat) :
    written.valueAt writer h seq dim = written.mMapValueAddr
        (writer.writtenPlace written.mMaxLength h seq dim) := by
  rw [valueAt, KVConfig.writtenPlace, stores.sized.valueSize, stores.sized.upper]

omit [Zero T] in
theorem files_valid (stores : Written writer count written) (heads : 0 < writer.mKvNumHead)
    (dims : 0 < writer.mHeadDim) (rows : 0 < count) :
    validatePrefixCacheFiles written.files = true := by
  have inCache : 0 < written.mMaxLength := lt_of_lt_of_le rows (stores.stored.trans stores.fits)
  have keys := Nat.zero_lt_of_lt (stores.sized.keyIndex_lt inCache dims)
  have values := Nat.zero_lt_of_lt (stores.sized.valueIndex_lt inCache dims)
  have keyFile : written.keyFileSize ≠ 0 := by
    rw [stores.exact'.key]
    exact (mul_pos heads keys).ne'
  have valueFile : written.valueFileSize ≠ 0 := by
    rw [stores.exact'.value]
    exact (mul_pos heads values).ne'
  exact Bool.and_eq_true_iff.mpr ⟨decide_eq_true keyFile, decide_eq_true valueFile⟩

/-- The places in the files are read as they were written. -/
def PlacesAgree (writer reader : KVConfig) (mMaxLength count : Nat) : Prop :=
  ∀ h < writer.mKvNumHead, ∀ seq < count, ∀ dim < writer.mHeadDim,
    writer.readPlace reader mMaxLength h seq dim = writer.writtenPlace mMaxLength h seq dim

theorem placesAgree_iff (fits : count ≤ mMaxLength)
    (heads : 0 < writer.mKvNumHead) (dims : 0 < writer.mHeadDim) (rows : 0 < count) :
    PlacesAgree writer reader mMaxLength count ↔ writer.LayoutsAgree reader mMaxLength count := by
  have upper_pos : 0 < writer.upperKv mMaxLength :=
    KVConfig.upperKv_pos (lt_of_lt_of_le rows fits)
  have isLayouts :
      writer.LayoutsAgree reader mMaxLength count ↔
        if reader.mUseFlashAttention then
          writer.ChunksAgree (writer.upperKv mMaxLength) reader.flashAttentionChunkKv count
        else
          writer.GroupsAgree mMaxLength count := by
    unfold KVConfig.LayoutsAgree
    simp only [heads.ne', dims.ne', rows.ne', false_or]
  rw [isLayouts]
  unfold PlacesAgree KVConfig.readPlace
  by_cases flash : reader.mUseFlashAttention = true
  · have chunk_pos : 0 < reader.flashAttentionChunkKv := by
      unfold KVConfig.flashAttentionChunkKv
      split <;> decide
    simp only [if_pos flash]
    rw [← KVConfig.chunksAgree_iff upper_pos chunk_pos dims rows]
    constructor
    · intro agree seq less dim inside
      exact add_left_cancel (agree 0 heads seq less dim inside)
    · intro agree h _ seq less dim inside
      rw [KVConfig.writtenPlace, agree seq less dim inside]
  · simp only [if_neg flash]
    exact KVConfig.groupsAgree_iff fits heads dims rows

theorem readPlace_lt (noFlash : ¬reader.mUseFlashAttention = true) {h : Nat}
    (less : seq < mMaxLength) (hLess : h < writer.mKvNumHead) (inside : dim < writer.mHeadDim) :
    writer.readPlace reader mMaxLength h seq dim < writer.mKvNumHead *
        writer.valueSizePerHead mMaxLength (writer.upperKv mMaxLength) := by
  have inGroupLess :
      inGroup writer seq dim < roundUp (writer.oldLength mMaxLength) writer.lP * writer.hP :=
    inner_lt (lt_of_lt_of_le less (writer.le_oldLength _)) dim
  have shorter :
      roundUp (writer.oldLength mMaxLength) writer.lP ≤
        upDiv mMaxLength (writer.upperKv mMaxLength) *
          roundUp (writer.upperKv mMaxLength) writer.lP := by
    rw [roundUp_eq (writer.upperKv mMaxLength), ← mul_assoc]
    refine roundUp_le_mul writer.lP_pos ?_
    rw [mul_assoc]
    exact min_le_right ..
  rw [KVConfig.readPlace, if_neg noFlash]
  calc
    _ < writer.mKvNumHead * upDiv writer.mHeadDim writer.hP *
          (roundUp (writer.oldLength mMaxLength) writer.lP * writer.hP) :=
      digits_lt (group_lt hLess inside) inGroupLess
    _ ≤ writer.mKvNumHead * upDiv writer.mHeadDim writer.hP *
          (upDiv mMaxLength (writer.upperKv mMaxLength) *
            roundUp (writer.upperKv mMaxLength) writer.lP * writer.hP) :=
      Nat.mul_le_mul_left _ (Nat.mul_le_mul_right _ shorter)
    _ = _ := by
      rw [KVConfig.valueSize_eq, mul_assoc]

theorem restores_of_places (same : KVConfig.SameLayer writer reader)
    (agree : PlacesAgree writer reader mMaxLength count) :
    Restores T writer reader mMaxLength count := by
  rintro written writes rfl - read reads h hLess seq less dim inside
  have stores := writes.written
  rcases reads.sameRows with ⟨add, -, -, sameRows⟩
  rcases sameRows h (by rwa [same.mKvNumHead]) seq less dim (by rwa [same.mHeadDim]) with
    ⟨sameKey, sameValue⟩
  have place := agree h hLess seq less dim inside
  have inCache : seq < written.mMaxLength :=
    lt_of_lt_of_le less (stores.stored.trans stores.fits)
  constructor
  · exact sameKey.trans (onAllocPrefix_key same stores add hLess less inside)
  · rw [sameValue, onAllocPrefix_value same stores add hLess less inside,
      writtenPlace_eq stores, if_neg, place]
    rintro ⟨flash, outside⟩
    rw [KVConfig.readPlace, if_pos flash, KVConfig.writtenPlace] at place
    have sameIndex := add_left_cancel place
    have inHead := stores.sized.valueIndex_lt inCache inside
    rw [stores.sized.upper, ← sameIndex] at inHead
    omega

/-- A single value in the files shows that the layouts have to agree. -/
theorem places_of_restores (same : KVConfig.SameLayer writer reader) {one : T} (nonzero : one ≠ 0)
    (writes : Writes writer count written)
    (restores : Restores T writer reader written.mMaxLength count) :
    PlacesAgree writer reader written.mMaxLength count := by
  intro h hLess seq less dim inside
  rcases writes.exists_marked one hLess inside with
    ⟨other, otherWrites, -, sameCapacity, marked, value⟩
  have stores := otherWrites.written
  have valid := files_valid stores (Nat.zero_lt_of_lt hLess) (Nat.zero_lt_of_lt inside)
      (Nat.zero_lt_of_lt less)
  have isRead := (restores other otherWrites sameCapacity valid _ (Reads.alloc 0) h hLess seq
        less dim inside).2
  have inCache : seq < other.mMaxLength := lt_of_lt_of_le less (stores.stored.trans stores.fits)
  rw [onAllocPrefix_value same stores 0 hLess less inside, value less] at isRead
  split at isRead
  · exact absurd isRead.symm nonzero
  · next inHead =>
    have something : other.mMapValueAddr
            (writer.readPlace reader other.mMaxLength h seq dim) ≠ 0 := by
      rwa [isRead]
    have inFile :
        writer.readPlace reader other.mMaxLength h seq dim <
          writer.mKvNumHead * other.mCurrentValueSizePerHead := by
      by_cases flash : reader.mUseFlashAttention = true
      · have inside := Nat.lt_of_not_le fun outside => inHead ⟨flash, outside⟩
        rw [KVConfig.readPlace, if_pos flash, ← stores.sized.upper, ← stores.sized.valueSize]
        exact digits_lt hLess inside
      · rw [stores.sized.valueSize, stores.sized.upper]
        exact readPlace_lt flash inCache hLess inside
    have place := marked.place inFile something
    rw [stores.sized.valueSize, stores.sized.upper] at place
    rw [← sameCapacity]
    exact place

/--
A prefix is read back from its files exactly if the layouts of its values agree
between the run that wrote it and the run that reads it.
-/
theorem restores_iff [Nontrivial T] (same : KVConfig.SameLayer writer reader) {mMaxLength : Nat}
    (reached :
      ∃ written : DiskCache T, Writes writer count written ∧ written.mMaxLength = mMaxLength) :
    Restores T writer reader mMaxLength count ↔ writer.LayoutsAgree reader mMaxLength count := by
  rcases reached with ⟨written, writes, rfl⟩
  have stores := writes.written
  have fits := stores.stored.trans stores.fits
  by_cases empty : writer.mKvNumHead = 0 ∨ writer.mHeadDim = 0 ∨ count = 0
  · constructor
    · rintro -
      rcases empty with heads | dims | rows
      · exact Or.inl heads
      · exact Or.inr (Or.inl dims)
      · exact Or.inr (Or.inr (Or.inl rows))
    · rintro - other - - - read - h hLess seq less dim inside
      omega
  · push Not at empty
    rcases empty with ⟨heads, dims, rows⟩
    rw [← placesAgree_iff fits (pos_of_ne_zero heads)
      (pos_of_ne_zero dims) (pos_of_ne_zero rows)]
    rcases exists_ne (0 : T) with ⟨one, nonzero⟩
    exact ⟨places_of_restores same nonzero writes, restores_of_places same⟩

/-- A layer on a CPU without tiles, for so many threads. -/
def prefixConfig (threadNumber : Nat) (mUseFlashAttention : Bool) : KVConfig where
  lP := 1
  hP := 4
  pack := 4
  mBytes := 4
  threadNumber := threadNumber
  mKvNumHead := 1
  mHeadDim := 8
  mExpandChunk := 64
  mUseFlashAttention := mUseFlashAttention
  mKeyQuantMode := .none
  mValueQuantMode := .none
  lP_pos := Nat.one_pos
  hP_pos := Nat.succ_le_succ (Nat.zero_le 3)

theorem prefixConfig_same (threads threads' : Nat) (flash flash' : Bool) :
    KVConfig.SameLayer (prefixConfig threads flash) (prefixConfig threads' flash') :=
  ⟨⟨rfl, rfl⟩, ⟨rfl, rfl⟩, rfl, rfl, rfl, rfl, rfl⟩

/-- A row of the numbers from one on, as keys and as values. -/
def countedRow : Rows Int :=
  { key := fun address => address + 1
    value := fun address => address + 1
    valueC4 := false }

def countedPrefix (threads : Nat) (flash : Bool) : DiskCache Int :=
  (onAlloc (prefixConfig threads flash) 1).onUpdateKV (prefixConfig threads flash) countedRow 1

theorem writes_countedPrefix (threads : Nat) (flash : Bool) :
    Writes (prefixConfig threads flash) 1 (countedPrefix threads flash) :=
  Writes.first 1 1 countedRow (le_refl 1)

/-- Two and four threads have the same chunks. -/
theorem restores_twoThreads : Restores Int (prefixConfig 2 true) (prefixConfig 4 true) 65 1 :=
  (restores_iff (prefixConfig_same 2 4 true true)
        ⟨countedPrefix 2 true, writes_countedPrefix 2 true, rfl⟩).mpr
    (Or.inr (Or.inr (Or.inr (Or.inl rfl))))

/-- One and four threads do not: the fifth value of the row is lost. -/
theorem not_restores_oneThread :
    ¬Restores Int (prefixConfig 1 true) (prefixConfig 4 true) 65 1 := by
  intro restores
  have read := (restores (countedPrefix 1 true) (writes_countedPrefix 1 true) rfl
        (by decide) _ (Reads.alloc 1) 0 (by decide) 0 (by decide) 4
        (by decide)).2
  exact absurd read (by decide +kernel)

end DiskCache

end Mnn.Cpu
