import Mnn.Llm.Mtok

/-!
# The grammar of the binary format

Which bytes stand for which component.  The readers take exactly these bytes.
-/

namespace Mnn.Mtok

open Mnn.Foundation BitFields ByteReader
open List

variable {type vocab_size : Nat} {bytes input : List Byte}

/-! ## Values -/

def StrBytes : Grammar Text := fun bytes s =>
  s.length < 256 ^ 2 ∧ bytes = toBytes 2 s.length ++ s

def IntBytes : Grammar Int := fun bytes value =>
  ∃ number < 256 ^ 4, bytes = toBytes 4 number ∧ value = int number

def BoolBytes : Grammar Bool := fun bytes value =>
  ∃ byte, bytes = [byte] ∧ value = bool byte

theorem reads_str : Reads read_str StrBytes := by
  intro input s rest
  show (number 2 >>= block) input = _ ↔ _
  simp only [bind_eq_ok, number_eq_ok, block_eq_ok]
  constructor
  · rintro ⟨_, _, ⟨rfl, few⟩, rfl, rfl⟩
    exact ⟨toBytes 2 s.length ++ s, (append_assoc ..).symm, few, rfl⟩
  · rintro ⟨_, rfl, few, rfl⟩
    exact ⟨s.length, s ++ rest, ⟨append_assoc .., few⟩, rfl, rfl⟩

theorem reads_int : Reads read_int IntBytes := by
  intro input value rest
  show (number 4 >>= fun value => pure (int value)) input = _ ↔ _
  simp only [bind_eq_ok, number_eq_ok, pure_eq_ok]
  constructor
  · rintro ⟨number, _, ⟨rfl, few⟩, rfl, rfl⟩
    exact ⟨toBytes 4 number, rfl, number, few, rfl, rfl⟩
  · rintro ⟨_, rfl, number, few, rfl, rfl⟩
    exact ⟨number, rest, ⟨rfl, few⟩, rfl, rfl⟩

theorem reads_bool : Reads read_bool BoolBytes := by
  intro input value rest
  show (byte >>= fun value => pure (bool value)) input = _ ↔ _
  simp only [bind_eq_ok, byte_eq_ok, pure_eq_ok]
  constructor
  · rintro ⟨byte, _, rfl, rfl, rfl⟩
    exact ⟨[byte], rfl, byte, rfl, rfl⟩
  · rintro ⟨_, rfl, byte, rfl, rfl⟩
    exact ⟨byte, rest, rfl, rfl, rfl⟩

def NormEntryBytes : Grammar (Nat × Text) := fun bytes entry =>
  entry.1 < 256 ^ 4 ∧ ∃ utf8, StrBytes utf8 entry.2 ∧ bytes = toBytes 4 entry.1 ++ utf8

def NormTableBytes : Grammar NormTable := fun bytes table =>
  table.length < 256 ^ 4 ∧ ∃ entries, Many NormEntryBytes entries table ∧
    bytes = toBytes 4 table.length ++ entries

/-! ## Normalizers -/

/-- A normalizer of some type that is not a sequence. -/
inductive NormalizerBytes : Nat → Grammar (Option NormalizerLeaf)
  | noTable : NormalizerBytes 1 [] (some (.nfkc [] true))
  | prepend {bytes : List Byte} {s : Text} :
      StrBytes bytes s → NormalizerBytes 2 bytes (some (.prepend s))
  | replace {bytes bytes' : List Byte} {pat content : Text} :
      StrBytes bytes pat → StrBytes bytes' content →
        NormalizerBytes 3 (bytes ++ bytes') (some (.replace pat content))
  | bert (clean chinese strip lower : Byte) : NormalizerBytes 5 [clean, chinese, strip, lower]
        (some (.bert (bool clean) (bool chinese) (bool strip) (bool lower) []))
  | nfkc {bytes : List Byte} {table : NormTable} :
      NormTableBytes bytes table → NormalizerBytes 6 bytes (some (.nfkc table true))
  | bertNfd (clean chinese strip lower : Byte) {bytes : List Byte} {nfd : NormTable} :
      bool strip = true → NormTableBytes bytes nfd →
        NormalizerBytes 7 (clean :: chinese :: strip :: lower :: bytes)
          (some (.bert (bool clean) (bool chinese) true (bool lower) nfd))
  | bertNoNfd (clean chinese strip lower : Byte) :
      bool strip = false → NormalizerBytes 7 [clean, chinese, strip, lower]
          (some (.bert (bool clean) (bool chinese) false (bool lower) []))
  | strip (left right : Byte) :
      NormalizerBytes 8 [left, right] (some (.strip (bool left) (bool right)))
  | nfc {bytes : List Byte} {table : NormTable} :
      NormTableBytes bytes table → NormalizerBytes 9 bytes (some (.nfkc table false))
  | none {type : Nat} : type ∉ [1, 2, 3, 5, 6, 7, 8, 9] → NormalizerBytes type [] none

theorem reads_normEntry : Reads read_norm_entry NormEntryBytes := by
  intro input entry rest
  show (number 4 >>= fun cp => read_str >>= fun utf8 => pure (cp, utf8)) input = _ ↔ _
  simp only [bind_eq_ok, number_eq_ok, pure_eq_ok, reads_str _ _ _]
  constructor
  · rintro ⟨cp, _, ⟨rfl, few⟩, utf8, _, ⟨bytes, rfl, isStr⟩, rfl, rfl⟩
    exact ⟨toBytes 4 cp ++ bytes, (append_assoc ..).symm, few, bytes, isStr,
      rfl⟩
  · rintro ⟨_, rfl, few, bytes, isStr, rfl⟩
    exact ⟨entry.1, _, ⟨append_assoc .., few⟩, entry.2, rest, ⟨bytes, rfl, isStr⟩, rfl, rfl⟩

theorem reads_normTable : Reads read_norm_table NormTableBytes := by
  intro input table rest
  show (number 4 >>= many read_norm_entry) input = _ ↔ _
  simp only [bind_eq_ok, number_eq_ok, reads_normEntry.many _ _ _ _]
  constructor
  · rintro ⟨_, _, ⟨rfl, few⟩, bytes, rfl, rfl, entries⟩
    exact ⟨toBytes 4 table.length ++ bytes, (append_assoc ..).symm, few, bytes, entries, rfl⟩
  · rintro ⟨_, rfl, few, bytes, entries, rfl⟩
    exact ⟨table.length, _, ⟨append_assoc .., few⟩, bytes, rfl, rfl, entries⟩

theorem sound_normalizerLeaf (type : Byte) :
    Sound (readNormalizerLeaf type) (NormalizerBytes type.toNat) := by
  unfold readNormalizerLeaf
  split
  all_goals
    rename_i isType
    intro input leaf rest read
    simp only [bind_eq_ok, pure_eq_ok, reads_str _ _ _, reads_bool _ _ _, reads_normTable _ _ _]
      at read
  case h_9 =>
    obtain ⟨rfl, rfl⟩ := read
    refine ⟨[], rfl, .none ?_⟩
    simp only [mem_cons, not_mem_nil, or_false, not_or]
    exact ⟨‹_›, ‹_›, ‹_›, ‹_›, ‹_›, ‹_›, ‹_›, isType⟩
  all_goals rw [isType]
  case h_1 =>
    obtain ⟨rfl, rfl⟩ := read
    exact ⟨[], rfl, .noTable⟩
  case h_2 =>
    obtain ⟨s, _, ⟨bytes, rfl, isStr⟩, rfl, rfl⟩ := read
    exact ⟨bytes, rfl, .prepend isStr⟩
  case h_3 =>
    obtain ⟨pat, _, ⟨bytes, rfl, isPat⟩, content, _, ⟨bytes', rfl, isContent⟩, rfl, rfl⟩ := read
    exact ⟨bytes ++ bytes', (append_assoc ..).symm, .replace isPat isContent⟩
  case h_4 =>
    obtain ⟨_, _, ⟨_, rfl, clean, rfl, rfl⟩, _, _, ⟨_, rfl, chinese, rfl, rfl⟩,
      _, _, ⟨_, rfl, strip, rfl, rfl⟩, _, _, ⟨_, rfl, lower, rfl, rfl⟩, rfl, rfl⟩ := read
    exact ⟨[clean, chinese, strip, lower], rfl, .bert ..⟩
  case h_5 =>
    obtain ⟨table, _, ⟨bytes, rfl, isTable⟩, rfl, rfl⟩ := read
    exact ⟨bytes, rfl, .nfkc isTable⟩
  case h_6 =>
    obtain ⟨_, _, ⟨_, rfl, clean, rfl, rfl⟩, _, _, ⟨_, rfl, chinese, rfl, rfl⟩,
      _, _, ⟨_, rfl, strip, rfl, rfl⟩, _, _, ⟨_, rfl, lower, rfl, rfl⟩, read⟩ := read
    cases accents : bool strip with
    | true =>
      rw [accents] at read
      simp only [if_true, bind_eq_ok, pure_eq_ok, reads_normTable _ _ _] at read
      obtain ⟨nfd, _, ⟨bytes, rfl, isTable⟩, rfl, rfl⟩ := read
      exact ⟨clean :: chinese :: strip :: lower :: bytes, rfl,
        .bertNfd clean chinese strip lower accents isTable⟩
    | false =>
      rw [accents] at read
      simp only [Bool.false_eq_true, if_false, bind_eq_ok, pure_eq_ok] at read
      obtain ⟨_, _, ⟨rfl, rfl⟩, rfl, rfl⟩ := read
      exact ⟨[clean, chinese, strip, lower], rfl, .bertNoNfd clean chinese strip lower accents⟩
  case h_7 =>
    obtain ⟨_, _, ⟨_, rfl, left, rfl, rfl⟩, _, _, ⟨_, rfl, right, rfl, rfl⟩, rfl, rfl⟩ := read
    exact ⟨[left, right], rfl, .strip ..⟩
  case h_8 =>
    obtain ⟨table, _, ⟨bytes, rfl, isTable⟩, rfl, rfl⟩ := read
    exact ⟨bytes, rfl, .nfc isTable⟩

theorem reads_normalizerLeaf (type : Byte) :
    Reads (readNormalizerLeaf type) (NormalizerBytes type.toNat) := by
  refine (sound_normalizerLeaf type).reads fun bytes leaf rest derived => ?_
  unfold readNormalizerLeaf
  generalize type.toNat = number at *
  cases derived with
  | noTable => rfl
  | prepend isStr => exact reads_str.bind_apply isStr rest
  | replace isPat isContent =>
    rw [append_assoc]
    exact (reads_str.bind_apply isPat _).trans (reads_str.bind_apply isContent rest)
  | bert => rfl
  | nfkc isTable => exact reads_normTable.bind_apply isTable rest
  | bertNfd clean chinese strip lower accents isTable =>
    show (if bool strip = true then _ else _ : Reader (Option NormalizerLeaf)) _ = _
    rw [accents]
    exact reads_normTable.bind_apply isTable rest
  | bertNoNfd clean chinese strip lower accents =>
    show (if bool strip = true then _ else _ : Reader (Option NormalizerLeaf)) _ = _
    rw [accents]
    rfl
  | strip left right => rfl
  | nfc isTable => exact reads_normTable.bind_apply isTable rest
  | none unknown =>
    split
    case h_9 => rfl
    all_goals exact absurd (by decide) unknown

theorem reads_normalizer_bin : Reads read_normalizer_bin
      (TreeBytes 4 fun type => NormalizerBytes type.toNat) :=
  reads_readTree reads_normalizerLeaf

/-! ## Pre-tokenizers -/

/-- A pre-tokenizer of some type that is not a sequence. -/
inductive PreTokenizerBytes : Nat → Grammar (Option PreTokenizerLeaf)
  | byteLevel {bytes : List Byte} {use_regex : Bool} :
      BoolBytes bytes use_regex → PreTokenizerBytes 1 bytes (some (.byteLevel use_regex))
  | digits {bytes : List Byte} {individual : Bool} :
      BoolBytes bytes individual → PreTokenizerBytes 2 bytes (some (.digits individual))
  | metaspace {bytes bytes' : List Byte} {rep : Text} {aps : Bool} :
      StrBytes bytes rep → BoolBytes bytes' aps →
        PreTokenizerBytes 3 (bytes ++ bytes') (some (.metaspace rep aps))
  | split {bytes bytes' : List Byte} {pat : Text} {invert : Bool} (behavior : Byte) :
      StrBytes bytes pat → BoolBytes bytes' invert →
        PreTokenizerBytes 4 (bytes ++ (bytes' ++ [behavior])) (some (.split pat invert
            (if behavior = 0 then .isolated
              else if behavior = 2 then .mergedWithPrevious
              else .removed)))
  | bert : PreTokenizerBytes 5 [] (some .bert)
  | none {type : Nat} : type ∉ [1, 2, 3, 4, 5] → PreTokenizerBytes type [] none

theorem sound_preTokenizerLeaf (type : Byte) :
    Sound (readPreTokenizerLeaf type) (PreTokenizerBytes type.toNat) := by
  unfold readPreTokenizerLeaf
  split
  all_goals
    rename_i isType
    intro input leaf rest read
    simp only [read_u8, bind_eq_ok, pure_eq_ok, byte_eq_ok, reads_str _ _ _, reads_bool _ _ _]
      at read
  case h_6 =>
    obtain ⟨rfl, rfl⟩ := read
    refine ⟨[], rfl, .none ?_⟩
    simp only [mem_cons, not_mem_nil, or_false, not_or]
    exact ⟨‹_›, ‹_›, ‹_›, ‹_›, isType⟩
  all_goals rw [isType]
  case h_1 =>
    obtain ⟨use_regex, _, ⟨bytes, rfl, isBool⟩, rfl, rfl⟩ := read
    exact ⟨bytes, rfl, .byteLevel isBool⟩
  case h_2 =>
    obtain ⟨individual, _, ⟨bytes, rfl, isBool⟩, rfl, rfl⟩ := read
    exact ⟨bytes, rfl, .digits isBool⟩
  case h_3 =>
    obtain ⟨rep, _, ⟨bytes, rfl, isRep⟩, aps, _, ⟨bytes', rfl, isBool⟩, rfl, rfl⟩ := read
    exact ⟨bytes ++ bytes', (append_assoc ..).symm, .metaspace isRep isBool⟩
  case h_4 =>
    obtain ⟨pat, _, ⟨bytes, rfl, isPat⟩, invert, _, ⟨bytes', rfl, isBool⟩, behavior, _, rfl, rfl,
      rfl⟩ := read
    refine ⟨bytes ++ (bytes' ++ [behavior]), ?_, .split behavior isPat isBool⟩
    simp only [append_assoc, singleton_append]
  case h_5 =>
    obtain ⟨rfl, rfl⟩ := read
    exact ⟨[], rfl, .bert⟩

theorem reads_preTokenizerLeaf (type : Byte) :
    Reads (readPreTokenizerLeaf type) (PreTokenizerBytes type.toNat) := by
  refine (sound_preTokenizerLeaf type).reads fun bytes leaf rest derived => ?_
  unfold readPreTokenizerLeaf
  generalize type.toNat = number at *
  cases derived with
  | byteLevel isBool => exact reads_bool.bind_apply isBool rest
  | digits isBool => exact reads_bool.bind_apply isBool rest
  | metaspace isRep isBool =>
    rw [append_assoc]
    exact (reads_str.bind_apply isRep _).trans (reads_bool.bind_apply isBool rest)
  | split behavior isPat isBool =>
    rw [append_assoc, append_assoc]
    exact (reads_str.bind_apply isPat _).trans (reads_bool.bind_apply isBool _)
  | bert => rfl
  | none unknown =>
    split
    case h_6 => rfl
    all_goals exact absurd (by decide) unknown

theorem reads_pre_tokenizer_bin : Reads read_pre_tokenizer_bin
      (TreeBytes 6 fun type => PreTokenizerBytes type.toNat) :=
  reads_readTree reads_preTokenizerLeaf

/-! ## Decoders -/

/-- A decoder of some type that is not a sequence. -/
inductive DecoderBytes : Nat → Grammar (Option DecoderLeaf)
  | byteLevel : DecoderBytes 0 [] (some .byteLevel)
  | byteFallback : DecoderBytes 1 [] (some .byteFallback)
  | metaspace {bytes bytes' : List Byte} {rep : Text} {aps : Bool} :
      StrBytes bytes rep → BoolBytes bytes' aps →
        DecoderBytes 2 (bytes ++ bytes') (some (.metaspace rep aps))
  | wordPiece {bytes bytes' : List Byte} {pfx : Text} {cleanup : Bool} :
      StrBytes bytes pfx → BoolBytes bytes' cleanup →
        DecoderBytes 3 (bytes ++ bytes') (some (.wordPiece pfx cleanup))
  | fuse : DecoderBytes 4 [] (some .fuse)
  | replace {bytes bytes' : List Byte} {pat content : Text} :
      StrBytes bytes pat → StrBytes bytes' content →
        DecoderBytes 5 (bytes ++ bytes') (some (.replace pat content))
  | strip {bytes bytes' bytes'' : List Byte} {content : Text} {start stop : Int} :
      StrBytes bytes content → IntBytes bytes' start → IntBytes bytes'' stop →
        DecoderBytes 6 (bytes ++ (bytes' ++ bytes'')) (some (.strip content start stop))
  | none {type : Nat} : type ∉ [0, 1, 2, 3, 4, 5, 6] → DecoderBytes type [] none

theorem sound_decoderLeaf (type : Byte) :
    Sound (readDecoderLeaf type) (DecoderBytes type.toNat) := by
  unfold readDecoderLeaf
  split
  all_goals
    rename_i isType
    intro input leaf rest read
    simp only [bind_eq_ok, pure_eq_ok, reads_str _ _ _, reads_bool _ _ _, reads_int _ _ _] at read
  case h_8 =>
    obtain ⟨rfl, rfl⟩ := read
    refine ⟨[], rfl, .none ?_⟩
    simp only [mem_cons, not_mem_nil, or_false, not_or]
    exact ⟨‹_›, ‹_›, ‹_›, ‹_›, ‹_›, ‹_›, isType⟩
  all_goals rw [isType]
  case h_1 =>
    obtain ⟨rfl, rfl⟩ := read
    exact ⟨[], rfl, .byteLevel⟩
  case h_2 =>
    obtain ⟨rfl, rfl⟩ := read
    exact ⟨[], rfl, .byteFallback⟩
  case h_3 =>
    obtain ⟨rep, _, ⟨bytes, rfl, isRep⟩, aps, _, ⟨bytes', rfl, isBool⟩, rfl, rfl⟩ := read
    exact ⟨bytes ++ bytes', (append_assoc ..).symm, .metaspace isRep isBool⟩
  case h_4 =>
    obtain ⟨pfx, _, ⟨bytes, rfl, isPfx⟩, cleanup, _, ⟨bytes', rfl, isBool⟩, rfl, rfl⟩ := read
    exact ⟨bytes ++ bytes', (append_assoc ..).symm, .wordPiece isPfx isBool⟩
  case h_5 =>
    obtain ⟨rfl, rfl⟩ := read
    exact ⟨[], rfl, .fuse⟩
  case h_6 =>
    obtain ⟨pat, _, ⟨bytes, rfl, isPat⟩, content, _, ⟨bytes', rfl, isContent⟩, rfl, rfl⟩ := read
    exact ⟨bytes ++ bytes', (append_assoc ..).symm, .replace isPat isContent⟩
  case h_7 =>
    obtain ⟨content, _, ⟨bytes, rfl, isContent⟩, start, _, ⟨bytes', rfl, isStart⟩, stop, _,
      ⟨bytes'', rfl, isStop⟩, rfl, rfl⟩ := read
    refine ⟨bytes ++ (bytes' ++ bytes''), ?_, .strip isContent isStart isStop⟩
    simp only [append_assoc]

theorem reads_decoderLeaf (type : Byte) :
    Reads (readDecoderLeaf type) (DecoderBytes type.toNat) := by
  refine (sound_decoderLeaf type).reads fun bytes leaf rest derived => ?_
  unfold readDecoderLeaf
  generalize type.toNat = number at *
  cases derived with
  | byteLevel => rfl
  | byteFallback => rfl
  | metaspace isRep isBool =>
    rw [append_assoc]
    exact (reads_str.bind_apply isRep _).trans (reads_bool.bind_apply isBool rest)
  | wordPiece isPfx isBool =>
    rw [append_assoc]
    exact (reads_str.bind_apply isPfx _).trans (reads_bool.bind_apply isBool rest)
  | fuse => rfl
  | replace isPat isContent =>
    rw [append_assoc]
    exact (reads_str.bind_apply isPat _).trans (reads_str.bind_apply isContent rest)
  | strip isContent isStart isStop =>
    rw [append_assoc, append_assoc]
    exact (reads_str.bind_apply isContent _).trans
      ((reads_int.bind_apply isStart _).trans (reads_int.bind_apply isStop rest))
  | none unknown =>
    split
    case h_8 => rfl
    all_goals exact absurd (by decide) unknown

theorem reads_decoder_bin : Reads read_decoder_bin
      (TreeBytes 7 fun type => DecoderBytes type.toNat) :=
  reads_readTree reads_decoderLeaf

/-! ## The model -/

/-- The id is an index of a vocabulary of this size. -/
def InRange (vocab_size : Nat) (id : Int) : Prop := 0 ≤ id ∧ id.toNat < vocab_size

def EntryBytes : Grammar VocabEntry := fun bytes entry =>
  ∃ sr id, StrBytes sr entry.1 ∧ IntBytes id entry.2 ∧ bytes = sr ++ id

def ScoredEntryBytes : Grammar (VocabEntry × Nat) := fun bytes entry =>
  entry.2 < 256 ^ 8 ∧ ∃ first, EntryBytes first entry.1 ∧ bytes = first ++ toBytes 8 entry.2

def MergeBytes : Grammar (Nat × Int) := fun bytes merge =>
  ∃ id1 id2 first second third, IntBytes first id1 ∧ IntBytes second id2 ∧
    IntBytes third merge.2 ∧ merge.1 = merge_key id1 id2 ∧ bytes = first ++ (second ++ third)

theorem check_id_eq_ok {id : Int} {value : Unit} {rest : List Byte} :
    check_id vocab_size id input = .ok (value, rest) ↔ rest = input ∧ InRange vocab_size id := by
  unfold check_id InRange
  split
  · rename_i outside
    exact iff_of_false nofun (by omega)
  · rename_i inside
    rw [pure_eq_ok, and_iff_right rfl, and_iff_left (by omega)]

theorem check_id_eq_error {id : Int} {failure : Failure} :
    check_id vocab_size id input = .error failure ↔ failure = .reject ∧ ¬InRange vocab_size id := by
  unfold check_id InRange
  split
  · rename_i outside
    show (Except.error Failure.reject : Except Failure (Unit × List Byte)) = _ ↔ _
    rw [Except.error.injEq, eq_comm, and_iff_left (by omega)]
  · rename_i inside
    exact iff_of_false nofun (by omega)

theorem reads_entry (vocab_size : Nat) : Reads (readEntry vocab_size) fun bytes entry =>
      EntryBytes bytes entry ∧ InRange vocab_size entry.2 := by
  intro input entry rest
  unfold readEntry
  simp only [bind_eq_ok, pure_eq_ok, reads_str _ _ _, reads_int _ _ _, check_id_eq_ok]
  constructor
  · rintro ⟨sr, _, ⟨bytes, rfl, isStr⟩, id, _, ⟨bytes', rfl, isInt⟩, _, _, ⟨rfl, inRange⟩, rfl, rfl⟩
    exact ⟨bytes ++ bytes', (append_assoc ..).symm, ⟨bytes, bytes', isStr, isInt, rfl⟩, inRange⟩
  · rintro ⟨_, rfl, ⟨bytes, bytes', isStr, isInt, rfl⟩, inRange⟩
    exact ⟨entry.1, _, ⟨bytes, append_assoc .., isStr⟩, entry.2, _,
      ⟨bytes', rfl, isInt⟩, (), _, ⟨rfl, inRange⟩, rfl, rfl⟩

theorem reads_scoredEntry (vocab_size : Nat) : Reads (readScoredEntry vocab_size) fun bytes entry =>
      ScoredEntryBytes bytes entry ∧ InRange vocab_size entry.1.2 := by
  intro input entry rest
  unfold readScoredEntry read_f64
  simp only [bind_eq_ok, pure_eq_ok, reads_str _ _ _, reads_int _ _ _, number_eq_ok, check_id_eq_ok]
  constructor
  · rintro ⟨sr, _, ⟨bytes, rfl, isStr⟩, id, _, ⟨bytes', rfl, isInt⟩, score, _,
      ⟨rfl, few⟩, _, _, ⟨rfl, inRange⟩, rfl, rfl⟩
    refine ⟨bytes ++ bytes' ++ toBytes 8 score, ?_,
      ⟨few, bytes ++ bytes', ⟨bytes, bytes', isStr, isInt, rfl⟩, rfl⟩, inRange⟩
    simp only [append_assoc]
  · rintro ⟨_, rfl, ⟨few, _, ⟨bytes, bytes', isStr, isInt, rfl⟩, rfl⟩, inRange⟩
    refine ⟨entry.1.1, bytes' ++ (toBytes 8 entry.2 ++ rest),
      ⟨bytes, ?_, isStr⟩, entry.1.2, _, ⟨bytes', rfl, isInt⟩, entry.2, rest,
      ⟨rfl, few⟩, (), _, ⟨rfl, inRange⟩, rfl, rfl⟩
    simp only [append_assoc]

theorem plain_int : Plain read_int := (Plain.number 4).bind fun _ => Plain.pure _

theorem plain_bool : Plain read_bool := Plain.byte.bind fun _ => Plain.pure _

theorem plain_str : Plain read_str := (Plain.number 2).bind fun _ => Plain.block _

theorem readEntry_eq_reject :
    readEntry vocab_size input = .error .reject ↔
      ∃ bytes entry rest, input = bytes ++ rest ∧ EntryBytes bytes entry ∧
        ¬InRange vocab_size entry.2 := by
  unfold readEntry
  simp only [bind_eq_error, pure_ne_error, plain_str.ne_reject,
    plain_int.ne_reject, reads_str _ _ _, reads_int _ _ _,
    check_id_eq_error, and_false, exists_false, or_false, false_or, true_and]
  constructor
  · rintro ⟨sr, _, ⟨bytes, rfl, isStr⟩, id, rest, ⟨bytes', rfl, isInt⟩, outside⟩
    exact ⟨bytes ++ bytes', (sr, id), rest, (append_assoc ..).symm,
      ⟨bytes, bytes', isStr, isInt, rfl⟩, outside⟩
  · rintro ⟨_, entry, rest, rfl, ⟨bytes, bytes', isStr, isInt, rfl⟩, outside⟩
    exact ⟨entry.1, _, ⟨bytes, append_assoc .., isStr⟩, entry.2, rest,
      ⟨bytes', rfl, isInt⟩, outside⟩

theorem readScoredEntry_eq_reject :
    readScoredEntry vocab_size input = .error .reject ↔
      ∃ bytes entry rest, input = bytes ++ rest ∧ ScoredEntryBytes bytes entry ∧
        ¬InRange vocab_size entry.1.2 := by
  unfold readScoredEntry read_f64
  simp only [bind_eq_error, pure_ne_error, plain_str.ne_reject,
    plain_int.ne_reject, (Plain.number 8).ne_reject, reads_str _ _ _,
    reads_int _ _ _, number_eq_ok, check_id_eq_error, and_false, exists_false,
    or_false, false_or, true_and]
  constructor
  · rintro ⟨sr, _, ⟨bytes, rfl, isStr⟩, id, _, ⟨bytes', rfl, isInt⟩, score, rest,
      ⟨rfl, few⟩, outside⟩
    refine ⟨bytes ++ bytes' ++ toBytes 8 score, ((sr, id), score), rest, ?_,
      ⟨few, bytes ++ bytes', ⟨bytes, bytes', isStr, isInt, rfl⟩, rfl⟩, outside⟩
    simp only [append_assoc]
  · rintro ⟨_, entry, rest, rfl, ⟨few, _, ⟨bytes, bytes', isStr, isInt, rfl⟩, rfl⟩, outside⟩
    refine ⟨entry.1.1, bytes' ++ (toBytes 8 entry.2 ++ rest),
      ⟨bytes, ?_, isStr⟩, entry.1.2, _, ⟨bytes', rfl, isInt⟩, entry.2, rest,
      ⟨rfl, few⟩, outside⟩
    simp only [append_assoc]

theorem plain_merge : Plain readMerge :=
  plain_int.bind fun _ => plain_int.bind fun _ => plain_int.bind fun _ =>
    Plain.pure _

theorem reads_merge : Reads readMerge MergeBytes := by
  refine Sound.reads (fun input merge rest read => ?_) fun _ merge rest derived => ?_
  · unfold readMerge at read
    simp only [bind_eq_ok, pure_eq_ok, reads_int _ _ _] at read
    obtain ⟨id1, _, ⟨first, rfl, isFirst⟩, id2, _, ⟨second, rfl, isSecond⟩, rank, _,
      ⟨third, rfl, isThird⟩, rfl, rfl⟩ := read
    refine ⟨first ++ (second ++ third), ?_, id1, id2, first, second, third, isFirst, isSecond,
      isThird, rfl, rfl⟩
    simp only [append_assoc]
  · obtain ⟨id1, id2, first, second, third, isFirst, isSecond, isThird, key, rfl⟩ := derived
    rw [append_assoc, append_assoc, ← Prod.eta merge, key]
    exact (reads_int.bind_apply isFirst _).trans
      ((reads_int.bind_apply isSecond _).trans (reads_int.bind_apply isThird rest))

/-- Entries whose ids are all in range. -/
abbrev Entries (vocab_size : Nat) : Grammar (List VocabEntry) :=
  Many fun bytes entry => EntryBytes bytes entry ∧ InRange vocab_size entry.2

abbrev ScoredEntries (vocab_size : Nat) : Grammar (List (VocabEntry × Nat)) :=
  Many fun bytes entry =>
    ScoredEntryBytes bytes entry ∧ InRange vocab_size entry.1.2

/-- What is in front of the vocabulary of a BPE model. -/
def bpeHead (byte_fallback byte_level : Byte) (merge_size : Nat) : List Byte :=
  byte_fallback :: byte_level :: toBytes 4 merge_size

theorem bpeHead_append (byte_fallback byte_level : Byte) (merge_size : Nat) (bytes : List Byte) :
    bpeHead byte_fallback byte_level merge_size ++ bytes =
      byte_fallback :: byte_level :: (toBytes 4 merge_size ++ bytes) :=
  rfl

/-- A model of some type with a vocabulary of some size. -/
inductive ModelBytes : Nat → Nat → Grammar (Option TokenizerModel)
  | bpe (byte_fallback byte_level : Byte) {bytes bytes' : List Byte}
      {entries : List VocabEntry} {merges : List (Nat × Int)} :
      merges.length < 256 ^ 4 → Entries entries.length bytes entries →
        Many MergeBytes bytes' merges → ModelBytes 0 entries.length
            (bpeHead byte_fallback byte_level merges.length ++ (bytes ++ bytes'))
            (some (.bpe (idToToken entries.length entries) entries merges (bool byte_level)))
  | wordPiece {unk pfx chars bytes : List Byte} {unk_token pfx_ : Text}
      {max_chars : Int} {entries : List VocabEntry} :
      StrBytes unk unk_token → StrBytes pfx pfx_ → IntBytes chars max_chars →
        Entries entries.length bytes entries →
          ModelBytes 1 entries.length (unk ++ (pfx ++ (chars ++ bytes)))
            (some (.wordPiece unk_token pfx_ max_chars (idToToken entries.length entries) entries))
  | unigram {unk fallback bytes : List Byte} {unk_id : Int}
      {byte_fallback : Bool} {entries : List (VocabEntry × Nat)} :
      IntBytes unk unk_id → BoolBytes fallback byte_fallback →
        ScoredEntries entries.length bytes entries →
          ModelBytes 2 entries.length (unk ++ (fallback ++ bytes))
            (some (.unigram unk_id byte_fallback (idToToken entries.length (entries.map Prod.fst))
              (fillIds 0 entries.length (entries.map fun entry => (entry.1.2, entry.2)))
              (entries.map Prod.fst)))
  | none {type vocab_size : Nat} : 2 < type → ModelBytes type vocab_size [] none

/-- A model up to an entry whose id is no index. -/
inductive ModelRefused : Nat → Nat → List Byte → Prop
  | bpe (byte_fallback byte_level : Byte) {vocab_size merge_size : Nat}
      {bytes last : List Byte} {entries : List VocabEntry} {entry : VocabEntry} :
      merge_size < 256 ^ 4 → entries.length < vocab_size →
        Entries vocab_size bytes entries → EntryBytes last entry → ¬InRange vocab_size entry.2 →
            ModelRefused 0 vocab_size
              (bpeHead byte_fallback byte_level merge_size ++ (bytes ++ last))
  | wordPiece {unk pfx chars bytes last : List Byte} {unk_token pfx_ : Text}
      {max_chars : Int} {vocab_size : Nat} {entries : List VocabEntry}
      {entry : VocabEntry} :
      StrBytes unk unk_token → StrBytes pfx pfx_ → IntBytes chars max_chars →
        entries.length < vocab_size → Entries vocab_size bytes entries →
          EntryBytes last entry → ¬InRange vocab_size entry.2 → ModelRefused 1 vocab_size
              (unk ++ (pfx ++ (chars ++ (bytes ++ last))))
  | unigram {unk fallback bytes last : List Byte} {unk_id : Int}
      {byte_fallback : Bool} {vocab_size : Nat}
      {entries : List (VocabEntry × Nat)} {entry : VocabEntry × Nat} :
      IntBytes unk unk_id → BoolBytes fallback byte_fallback →
        entries.length < vocab_size → ScoredEntries vocab_size bytes entries →
          ScoredEntryBytes last entry → ¬InRange vocab_size entry.1.2 →
            ModelRefused 2 vocab_size (unk ++ (fallback ++ (bytes ++ last)))

theorem sound_modelBody (type : Byte) (vocab_size : Nat) :
    Sound (readModelBody type vocab_size) (ModelBytes type.toNat vocab_size) := by
  unfold readModelBody
  split
  all_goals
    rename_i isType
    intro input model rest read
    simp only [read_u8, read_u32, bind_eq_ok, pure_eq_ok, byte_eq_ok,
      number_eq_ok, reads_str _ _ _, reads_bool _ _ _, reads_int _ _ _,
      (reads_entry vocab_size).many _ _ _ _,
      (reads_scoredEntry vocab_size).many _ _ _ _, reads_merge.many _ _ _ _] at read
  case h_4 =>
    obtain ⟨rfl, rfl⟩ := read
    refine ⟨[], rfl, .none ?_⟩
    have not0 : type.toNat ≠ 0 := ‹_›
    have not1 : type.toNat ≠ 1 := ‹_›
    have not2 : type.toNat ≠ 2 := isType
    omega
  all_goals rw [isType]
  case h_1 =>
    obtain ⟨byte_fallback, _, rfl, _, _, ⟨_, rfl, byte_level, rfl, rfl⟩, _, _, ⟨rfl, few⟩, entries,
      _, ⟨bytes, rfl, rfl, isEntries⟩, merges, _, ⟨bytes', rfl, rfl, isMerges⟩, rfl, rfl⟩ := read
    refine ⟨_, ?_, .bpe byte_fallback byte_level few isEntries isMerges⟩
    simp only [bpeHead, cons_append, nil_append, append_assoc]
  case h_2 =>
    obtain ⟨unk_token, _, ⟨unk, rfl, isUnk⟩, pfx_, _, ⟨pfx, rfl, isPfx⟩, max_chars, _,
      ⟨chars, rfl, isChars⟩, entries, _, ⟨bytes, rfl, rfl, isEntries⟩, rfl, rfl⟩ := read
    refine ⟨_, ?_, .wordPiece isUnk isPfx isChars isEntries⟩
    simp only [append_assoc]
  case h_3 =>
    obtain ⟨unk_id, _, ⟨unk, rfl, isUnk⟩, byte_fallback, _, ⟨fallback, rfl, isFallback⟩, entries, _,
      ⟨bytes, rfl, rfl, isEntries⟩, rfl, rfl⟩ := read
    refine ⟨_, ?_, .unigram isUnk isFallback isEntries⟩
    simp only [append_assoc]

theorem reads_modelBody (type : Byte) (vocab_size : Nat) :
    Reads (readModelBody type vocab_size) (ModelBytes type.toNat vocab_size) := by
  refine (sound_modelBody type vocab_size).reads fun bytes model rest derived => ?_
  unfold readModelBody
  generalize type.toNat = number at *
  cases derived with
  | bpe byte_fallback byte_level few isEntries isMerges =>
    rw [append_assoc, append_assoc, bpeHead_append]
    exact (bind_of_ok (byte_eq_ok.mpr rfl)).trans
      ((reads_bool.bind_apply ⟨byte_level, rfl, rfl⟩ _).trans
        ((bind_of_ok (number_eq_ok.mpr ⟨rfl, few⟩)).trans
          ((((reads_entry _).many _).bind_apply ⟨rfl, isEntries⟩ _).trans
            ((reads_merge.many _).bind_apply ⟨rfl, isMerges⟩ rest))))
  | wordPiece isUnk isPfx isChars isEntries =>
    rw [append_assoc, append_assoc, append_assoc]
    exact (reads_str.bind_apply isUnk _).trans ((reads_str.bind_apply isPfx _).trans
      ((reads_int.bind_apply isChars _).trans
        (((reads_entry _).many _).bind_apply ⟨rfl, isEntries⟩ rest)))
  | unigram isUnk isFallback isEntries =>
    rw [append_assoc, append_assoc]
    exact (reads_int.bind_apply isUnk _).trans ((reads_bool.bind_apply isFallback _).trans
      (((reads_scoredEntry _).many _).bind_apply ⟨rfl, isEntries⟩ rest))
  | none unknown =>
    split
    case h_4 => rfl
    all_goals omega

theorem rejects_modelBody (type : Byte) (vocab_size : Nat) : Rejects (readModelBody type vocab_size)
      (ModelRefused type.toNat vocab_size) := by
  unfold readModelBody
  split
  all_goals
    rename_i isType
    intro input
    simp only [read_u8, read_u32, bind_eq_error, pure_ne_error, byte_eq_ok,
      number_eq_ok, reads_str _ _ _, reads_bool _ _ _, reads_int _ _ _,
      Plain.byte.ne_reject, (Plain.number 4).ne_reject, plain_str.ne_reject,
      plain_bool.ne_reject, plain_int.ne_reject,
      (plain_merge.many _).ne_reject,
      (reads_entry vocab_size).many_eq_reject,
      (reads_scoredEntry vocab_size).many_eq_reject,
      readEntry_eq_reject, readScoredEntry_eq_reject, and_false, exists_false,
      or_false, false_or]
  case h_1 =>
    rw [isType]
    constructor
    · rintro ⟨byte_fallback, _, rfl, _, _, ⟨_, rfl, byte_level, rfl, rfl⟩, _, _,
        ⟨rfl, few⟩, bytes, entries, _, rfl, less, isEntries, last, entry, rest, rfl,
        isEntry, outside⟩
      refine ⟨_, rest, ?_, .bpe byte_fallback byte_level few less isEntries isEntry outside⟩
      rw [append_assoc, append_assoc, bpeHead_append]
      rfl
    · rintro ⟨_, rest, rfl, derived⟩
      cases derived with
      | @bpe byte_fallback byte_level _ _ bytes last entries entry few less
          isEntries isEntry outside =>
          rw [append_assoc, append_assoc, bpeHead_append]
          exact ⟨byte_fallback, _, rfl, _, _,
            ⟨[byte_level], rfl, byte_level, rfl, rfl⟩, _, _, ⟨rfl, few⟩, bytes,
            entries, _, rfl, less, isEntries, last, entry, rest, rfl, isEntry,
            outside⟩
  case h_2 =>
    rw [isType]
    constructor
    · rintro ⟨unk_token, _, ⟨unk, rfl, isUnk⟩, pfx_, _, ⟨pfx, rfl, isPfx⟩,
        max_chars, _, ⟨chars, rfl, isChars⟩, bytes, entries, _, rfl, less,
        isEntries, last, entry, rest, rfl, isEntry, outside⟩
      refine ⟨_, rest, ?_, .wordPiece isUnk isPfx isChars less isEntries isEntry outside⟩
      simp only [append_assoc]
    · rintro ⟨_, rest, rfl, derived⟩
      cases derived with
      | wordPiece isUnk isPfx isChars less isEntries isEntry outside =>
        exact ⟨_, _, ⟨_, append_assoc .., isUnk⟩, _, _, ⟨_, append_assoc .., isPfx⟩, _, _,
          ⟨_, append_assoc .., isChars⟩, _, _, _, append_assoc ..,
          less, isEntries, _, _, rest, rfl, isEntry, outside⟩
  case h_3 =>
    rw [isType]
    constructor
    · rintro ⟨unk_id, _, ⟨unk, rfl, isUnk⟩, byte_fallback, _,
        ⟨fallback, rfl, isFallback⟩, bytes, entries, _, rfl, less, isEntries, last,
        entry, rest, rfl, isEntry, outside⟩
      refine ⟨_, rest, ?_, .unigram isUnk isFallback less isEntries isEntry outside⟩
      simp only [append_assoc]
    · rintro ⟨_, rest, rfl, derived⟩
      cases derived with
      | unigram isUnk isFallback less isEntries isEntry outside =>
        exact ⟨_, _, ⟨_, append_assoc .., isUnk⟩, _, _,
          ⟨_, append_assoc .., isFallback⟩, _, _, _, append_assoc ..,
          less, isEntries, _, _, rest, rfl, isEntry, outside⟩
  case h_4 =>
    refine iff_of_false (fun impossible => impossible) ?_
    rintro ⟨_, _, -, derived⟩
    generalize type.toNat = number at *
    cases derived with
    | bpe => exact ‹0 = 0 → False› rfl
    | wordPiece => exact ‹1 = 1 → False› rfl
    | unigram => exact isType rfl

/-! ## Added tokens -/

def AddedTokenBytes : Grammar AddedToken := fun bytes token =>
  ∃ id special lstrip rstrip content, IntBytes id token.id ∧
    BoolBytes special token.special ∧ BoolBytes lstrip token.lstrip ∧
      BoolBytes rstrip token.rstrip ∧ StrBytes content token.content ∧
        bytes = id ++ (special ++ (lstrip ++ (rstrip ++ content)))

def AddedTokensBytes : Grammar (List AddedToken) := fun bytes tokens =>
  tokens.length < 256 ^ 4 ∧ ∃ added, Many AddedTokenBytes added tokens ∧
    bytes = toBytes 4 tokens.length ++ added

theorem reads_addedToken : Reads readAddedToken AddedTokenBytes := by
  refine Sound.reads (fun input token rest read => ?_) fun _ token rest derived => ?_
  · unfold readAddedToken at read
    simp only [bind_eq_ok, pure_eq_ok, reads_str _ _ _, reads_bool _ _ _, reads_int _ _ _] at read
    obtain ⟨_, _, ⟨id, rfl, isId⟩, _, _, ⟨special, rfl, isSpecial⟩, _, _, ⟨lstrip, rfl, isLstrip⟩,
      _, _, ⟨rstrip, rfl, isRstrip⟩, _, _, ⟨content, rfl, isContent⟩, rfl, rfl⟩ := read
    refine ⟨_, ?_, id, special, lstrip, rstrip, content, isId, isSpecial, isLstrip,
      isRstrip, isContent, rfl⟩
    simp only [append_assoc]
  · obtain ⟨id, special, lstrip, rstrip, content, isId, isSpecial, isLstrip, isRstrip, isContent,
      rfl⟩ := derived
    simp only [append_assoc]
    exact (reads_int.bind_apply isId _).trans ((reads_bool.bind_apply isSpecial _).trans
      ((reads_bool.bind_apply isLstrip _).trans ((reads_bool.bind_apply isRstrip _).trans
        (reads_str.bind_apply isContent rest))))

theorem reads_addedTokens : Reads readAddedTokens AddedTokensBytes := by
  intro input tokens rest
  show (number 4 >>= many readAddedToken) input = _ ↔ _
  simp only [bind_eq_ok, number_eq_ok, reads_addedToken.many _ _ _ _]
  constructor
  · rintro ⟨_, _, ⟨rfl, few⟩, added, rfl, rfl, isAdded⟩
    exact ⟨toBytes 4 tokens.length ++ added, (append_assoc ..).symm, few, added, isAdded, rfl⟩
  · rintro ⟨_, rfl, few, added, isAdded, rfl⟩
    exact ⟨tokens.length, _, ⟨append_assoc .., few⟩, added, rfl, rfl, isAdded⟩

/-! ## The optional sections -/

theorem optionalSection_eq {α : Type} (absent : α) (reader : Reader α) (input : List Byte) :
    optionalSection absent reader input =
      if input = [] then .ok (absent, []) else reader input := by
  show (if input.length = 0 then pure absent else reader : Reader α) input = _
  cases input with
  | nil => rfl
  | cons first rest => rfl

theorem readOps_nil (count : Nat) : readOps count [] = .ok ([], []) := by
  cases count with
  | zero => rfl
  | succ count => rfl

theorem readOps_cons (count : Nat) (op_type : Byte) (rest : List Byte) :
    readOps (count + 1) (op_type :: rest) =
      if op_type = 0 then
        (readOps count >>= fun ops => pure (.sequenceA :: ops)) rest
      else if op_type = 1 ∧ 4 ≤ rest.length then
        (read_int >>= fun token_id =>
          readOps count >>= fun ops => pure (.specialToken token_id :: ops)) rest
      else
        .ok ([], rest) := by
  have unfolded : readOps (count + 1) (op_type :: rest) = (if op_type = 0 then
            readOps count >>= fun ops => pure (.sequenceA :: ops)
          else if op_type = 1 ∧ 4 ≤ rest.length + 1 - 1 then
            read_int >>= fun token_id =>
              readOps count >>= fun ops => pure (.specialToken token_id :: ops)
          else
            pure [] : Reader (List PostProcessorOp)) rest :=
    rfl
  rw [unfolded, Nat.add_sub_cancel]
  split
  · rfl
  · split
    · rfl
    · rfl

theorem readPostProcessor_eq {count : Nat} (few : count < 256 ^ 2) (rest : List Byte) :
    readPostProcessor (toBytes 2 count ++ rest) =
      if rest.length = count * 4 then
        (many read_int count >>= fun ids =>
          pure (.sequenceA :: ids.map .specialToken)) rest
      else
        readOps count rest := by
  have isCount : read_u16 (toBytes 2 count ++ rest) = .ok (count, rest) :=
    number_eq_ok.mpr ⟨rfl, few⟩
  show (read_u16 >>= _) _ = _
  rw [bind_of_ok isCount, bind_of_ok (show remaining rest = .ok (_, rest) from rfl)]
  split
  · rfl
  · rfl

end Mnn.Mtok
