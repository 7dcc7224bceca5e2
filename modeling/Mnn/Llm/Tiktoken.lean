import Mnn.Llm.Trie

/-!
# The tiktoken tokenizer

`encode` takes the longest token again and again.  The search reads the `NUL`
behind the text like a byte of it, which goes wrong exactly when a token goes
on with it.
-/

variable {it fuel : Nat}

namespace Mnn.Llm

open List

variable {token text : List Byte}

structure Tiktoken where
  encoder_ : Trie
  decoder_ : List (List Byte)

namespace Tiktoken

/-- `load_vocab`, for the decoded lines. -/
def loadVocab (tokens : List (List Byte)) : Tiktoken where
  encoder_ := (tokens.zipIdx.map fun entry => (entry.1, (entry.2 : Int))).foldl Trie.insert {}
  decoder_ := tokens

/-- The loop of `encode`. -/
def encodeLoop (tiktoken : Tiktoken) (str : List Byte) : Nat → Nat → List Int → Option (List Int)
  | 0, _, _ => none
  | fuel + 1, it, ids =>
    if it ≠ str.length then
      match tiktoken.encoder_.find str it with
      | none => none
      | some (token_id, it) =>
        encodeLoop tiktoken str fuel it (if token_id ≥ 0 then ids ++ [token_id] else ids)
    else
      some ids

def encode (tiktoken : Tiktoken) (fuel : Nat) (str : List Byte) : Option (List Int) :=
  if str.isEmpty then some [] else encodeLoop tiktoken str fuel 0 []

def decode (tiktoken : Tiktoken) (id : Int) : List Byte :=
  if id < 0 ∨ id ≥ tiktoken.decoder_.length then
    []
  else
    tiktoken.decoder_.getD id.toNat []

/-! ## Longest tokens -/

/-- The longest token that the text begins with. -/
structure IsLongest (tokens : List (List Byte)) (token rest : List Byte) :
    Prop where
  mem : token ∈ tokens
  isPrefix : token <+: rest
  longest : ∀ other ∈ tokens, other <+: rest → other.length ≤ token.length

/-- The ids of the longest tokens, one after the other. -/
inductive LongestMatches (tokens : List (List Byte)) :
    List Byte → List Int → Prop
  | nil : LongestMatches tokens [] []
  | cons {token rest : List Byte} {id : Nat} {ids : List Int}
      (isToken : tokens[id]? = some token) (some_left : rest ≠ [])
      (isLongest : IsLongest tokens token rest)
      (later : LongestMatches tokens (rest.drop token.length) ids) :
      LongestMatches tokens rest (id :: ids)

/-- The parts of the text at which a longest token is looked for. -/
inductive Reached (tokens : List (List Byte)) (text : List Byte) :
    List Byte → Prop
  | start : Reached tokens text text
  | next {token rest : List Byte} (reached : Reached tokens text rest)
      (some_left : rest ≠ []) (isLongest : IsLongest tokens token rest) :
      Reached tokens text (rest.drop token.length)

variable {tokens : List (List Byte)}

theorem IsLongest.unique {token' rest : List Byte} (isLongest : IsLongest tokens token rest)
    (isLongest' : IsLongest tokens token' rest) : token = token' := by
  have same : token.length = token'.length :=
    le_antisymm (isLongest'.longest token isLongest.mem isLongest.isPrefix)
      (isLongest.longest token' isLongest'.mem isLongest'.isPrefix)
  rw [prefix_iff_eq_take.mp isLongest.isPrefix,
    prefix_iff_eq_take.mp isLongest'.isPrefix, same]

theorem Reached.cons {rest : List Byte} (some_left : text ≠ [])
    (isLongest : IsLongest tokens token text) :
    Reached tokens text rest ↔ rest = text ∨ Reached tokens (text.drop token.length) rest := by
  constructor
  · intro reached
    induction reached with
    | start => exact Or.inl rfl
    | next reached restLeft isLongest' ih =>
      right
      rcases ih with rfl | later
      · rw [isLongest'.unique isLongest]
        exact Reached.start
      · exact later.next restLeft isLongest'
  · rintro (rfl | later)
    · exact Reached.start
    · induction later with
      | start => exact Reached.start.next some_left isLongest
      | next reached restLeft isLongest' ih =>
        exact ih.next restLeft isLongest'

theorem reached_nil {rest : List Byte} (reached : Reached tokens [] rest) : rest = [] := by
  induction reached with
  | start => rfl
  | next reached some_left isLongest ih =>
    exact absurd ih some_left

/-- At no place do the rest of the text and a `NUL` begin a token. -/
def Clean (tokens : List (List Byte)) (text : List Byte) : Prop :=
  ∀ rest, Reached tokens text rest → rest ≠ [] → ∀ token ∈ tokens, ¬rest ++ [0] <+: token

theorem clean_cons (some_left : text ≠ []) (isLongest : IsLongest tokens token text) :
    Clean tokens text ↔ (∀ token ∈ tokens, ¬text ++ [0] <+: token) ∧
        Clean tokens (text.drop token.length) := by
  unfold Clean
  simp only [Reached.cons some_left isLongest]
  constructor
  · intro clean
    exact ⟨clean text (Or.inl rfl) some_left, fun rest later =>
        clean rest (Or.inr later)⟩
  · rintro ⟨here, later⟩ rest (rfl | reached)
    · exact fun _ => here
    · exact later rest reached

theorem mem_entries {id : Int} :
    (token, id) ∈ (tokens.zipIdx.map fun entry => (entry.1, (entry.2 : Int))) ↔
      ∃ number : Nat, id = number ∧ tokens[number]? = some token := by
  simp only [mem_map, Prod.exists, Prod.mk.injEq, mk_mem_zipIdx_iff_getElem?]
  constructor
  · rintro ⟨token, number, isToken, rfl, rfl⟩
    exact ⟨number, rfl, isToken⟩
  · rintro ⟨number, rfl, isToken⟩
    exact ⟨token, number, isToken, rfl, rfl⟩

theorem loadVocab_spec (distinct : tokens.Nodup) :
    (∀ path, path ≠ [] → ((loadVocab tokens).encoder_.Has path ↔
          ∃ token ∈ tokens, path <+: token)) ∧
      ∀ path id, id ≠ -1 → ((loadVocab tokens).encoder_.idOf path = id ↔
          ∃ number : Nat, id = number ∧ tokens[number]? = some path) := by
  let entries := tokens.zipIdx.map fun entry => (entry.1, (entry.2 : Int))
  have sameTokens : entries.map Prod.fst = tokens := by
    simp only [entries, map_map]
    exact zipIdx_map_fst 0 tokens
  have fresh : ∀ entry ∈ entries, Trie.idOf {} entry.1 = -1 ∧ entry.2 ≠ -1 := by
    rintro ⟨token, id⟩ member
    rcases mem_entries.mp member with ⟨number, rfl, -⟩
    constructor
    · cases token <;> rfl
    · exact nofun
  rcases Trie.foldl_insert Trie.wellFormed_empty (sameTokens.symm ▸ distinct) fresh
    with ⟨-, has, idOf⟩
  constructor
  · intro path someByte
    rw [loadVocab, has]
    have notEmpty : ¬Trie.Has {} path := by
      cases path with
      | nil => exact absurd rfl someByte
      | cons c rest => exact nofun
    rw [or_iff_right notEmpty]
    constructor
    · rintro ⟨⟨token, id⟩, member, isPrefix⟩
      rcases mem_entries.mp member with ⟨number, -, isToken⟩
      exact ⟨token, mem_of_getElem? isToken, isPrefix⟩
    · rintro ⟨token, member, isPrefix⟩
      rcases getElem?_of_mem member with ⟨number, isToken⟩
      exact ⟨(token, number), mem_entries.mpr ⟨number, rfl, isToken⟩, isPrefix⟩
  · intro path id isSet
    rw [loadVocab, idOf path id isSet, mem_entries]
    refine or_iff_right ?_
    intro unset
    apply isSet
    rw [← unset]
    cases path <;> rfl

/-- The search finds the longest token, or reads behind the text. -/
theorem find_spec (distinct : tokens.Nodup) (bytes : ∀ byte, [byte] ∈ tokens)
    (less : it < text.length) :
    ((loadVocab tokens).encoder_.find text it = none ↔
        ∃ token ∈ tokens, text.drop it ++ [0] <+: token) ∧
      ∀ id end_it, (loadVocab tokens).encoder_.find text it = some (id, end_it) →
          ∃ (number : Nat) (token : List Byte), id = number ∧ tokens[number]? = some token ∧
              IsLongest tokens token (text.drop it) ∧ 0 < token.length ∧
              end_it = it + token.length := by
  rcases loadVocab_spec distinct with ⟨has, idOf⟩
  have readable : (text ++ [0]).drop it = text.drop it ++ [0] :=
    drop_append_of_le_length (le_of_lt less)
  have some_left : text.drop it ≠ [] := by
    rw [ne_eq, drop_eq_nil_iff]
    exact Nat.not_le_of_lt less
  rcases @Trie.findAt_spec (loadVocab tokens).encoder_ 0 [] rfl (-1) (it + 1) it
        (text.drop it ++ [0]) with
    ⟨reads, finds⟩
  simp only [nil_append] at reads finds
  rw [has _ (append_ne_nil_of_left_ne_nil some_left _)] at reads
  unfold Trie.find
  rw [if_neg (ne_of_lt less), readable]
  refine ⟨reads, ?_⟩
  intro id end_it found
  have hasNot : ¬∃ token ∈ tokens, text.drop it ++ [0] <+: token := by
    rw [← reads, found]
    exact nofun
  have setOf : ∀ token ∈ tokens, (loadVocab tokens).encoder_.idOf token ≠ -1 := by
    intro token member unset
    rcases getElem?_of_mem member with ⟨number, isToken⟩
    have isId := (idOf token number fun negative => nomatch negative).mpr ⟨number, rfl, isToken⟩
    rw [unset] at isId
    nomatch isId
  have first : (loadVocab tokens).encoder_.idOf ((text.drop it ++ [0]).take 1) ≠ -1 := by
    cases isRest : text.drop it with
    | nil => exact absurd isRest some_left
    | cons byte rest => exact setOf [byte] (bytes byte)
  have oneLe : 1 ≤ (text.drop it ++ [0]).length := by
    rw [length_append]
    exact Nat.le_add_left ..
  rcases finds id end_it found with
    ⟨count, countLe, isId, isSet, isEnd, longest⟩ | ⟨unset, -, -⟩
  · rcases (idOf _ id isSet).mp isId with ⟨number, isNumber, isToken⟩
    have positive : 0 < count := by
      by_contra notPositive
      exact first (longest 1 oneLe (by omega))
    have inText : count ≤ (text.drop it).length := by
      by_contra behind
      rw [length_append, length_singleton] at countLe
      have all : count = (text.drop it ++ [0]).length := by
        rw [length_append, length_singleton]
        omega
      rw [all, take_length] at isToken
      exact hasNot ⟨_, mem_of_getElem? isToken, prefix_refl _⟩
    rw [take_append_of_le_length inText] at isToken
    have length : ((text.drop it).take count).length = count := length_take_of_le inText
    refine ⟨number, _, isNumber, isToken, ?_, ?_, ?_⟩
    · constructor
      · exact mem_of_getElem? isToken
      · exact take_prefix ..
      · intro other member isPrefix
        rw [length]
        by_contra longer
        have otherLe := isPrefix.length_le
        have unset := longest other.length (by rw [length_append]; omega) (Nat.lt_of_not_le longer)
        rw [take_append_of_le_length otherLe, ← prefix_iff_eq_take.mp isPrefix] at unset
        exact setOf other member unset
    · rwa [length]
    · rw [length]
      exact isEnd
  · exact absurd (unset 1 oneLe) first

/-! ## Encoding -/

variable (distinct : tokens.Nodup) (bytes : ∀ byte, [byte] ∈ tokens)

include distinct bytes

/-- The ids that the loop adds are those of the longest tokens. -/
theorem encodeLoop_matches {ids result : List Int} (inText : it ≤ text.length)
    (encoded : encodeLoop (loadVocab tokens) text fuel it ids = some result) :
    Clean tokens (text.drop it) ∧ ∃ more, result = ids ++ more ∧
        LongestMatches tokens (text.drop it) more := by
  induction fuel generalizing it ids with
  | zero => nomatch encoded
  | succ fuel ih =>
    unfold encodeLoop at encoded
    by_cases atEnd : it = text.length
    · rw [if_neg (not_not_intro atEnd)] at encoded
      rw [atEnd, drop_length]
      refine ⟨?_, [], ?_, LongestMatches.nil⟩
      · exact fun rest reached some_left => absurd (reached_nil reached) some_left
      · rw [append_nil, Option.some.inj encoded]
    · rw [if_pos atEnd] at encoded
      have less : it < text.length := lt_of_le_of_ne inText atEnd
      have some_left : text.drop it ≠ [] := by
        rw [ne_eq, drop_eq_nil_iff]
        exact Nat.not_le_of_lt less
      rcases find_spec distinct bytes less with ⟨reads, finds⟩
      cases found : (loadVocab tokens).encoder_.find text it with
      | none => rw [found] at encoded; nomatch encoded
      | some pair =>
        rcases pair with ⟨id, end_it⟩
        rcases finds id end_it found with
          ⟨number, token, rfl, isToken, isLongest, positive, rfl⟩
        rw [found] at encoded reads
        simp only [ge_iff_le, Int.natCast_nonneg, if_true] at encoded
        have inRest := isLongest.isPrefix.length_le
        rw [length_drop] at inRest
        rcases ih (by omega) encoded with
          ⟨clean, more, isResult, later⟩
        rw [← drop_drop] at clean later
        constructor
        · rw [clean_cons some_left isLongest]
          refine ⟨?_, clean⟩
          intro other member isPrefix
          nomatch reads.mpr ⟨other, member, isPrefix⟩
        · refine ⟨number :: more, ?_, later.cons isToken some_left isLongest⟩
          rw [isResult, append_assoc, singleton_append]

theorem encodeLoop_ends (inText : it ≤ text.length)
    (enough : text.length - it < fuel) (clean : Clean tokens (text.drop it)) (ids : List Int) :
    ∃ result, encodeLoop (loadVocab tokens) text fuel it ids = some result := by
  induction fuel generalizing it ids with
  | zero => cases enough
  | succ fuel ih =>
    unfold encodeLoop
    by_cases atEnd : it = text.length
    · rw [if_neg (not_not_intro atEnd)]
      exact ⟨ids, rfl⟩
    · rw [if_pos atEnd]
      have less : it < text.length := lt_of_le_of_ne inText atEnd
      have some_left : text.drop it ≠ [] := by
        rw [ne_eq, drop_eq_nil_iff]
        exact Nat.not_le_of_lt less
      rcases find_spec distinct bytes less with ⟨reads, finds⟩
      cases found : (loadVocab tokens).encoder_.find text it with
      | none =>
        rcases reads.mp found with ⟨token, member, isPrefix⟩
        exact absurd isPrefix (clean _ Reached.start some_left token member)
      | some pair =>
        rcases pair with ⟨id, end_it⟩
        rcases finds id end_it found with
          ⟨number, token, rfl, isToken, isLongest, positive, rfl⟩
        have inRest := isLongest.isPrefix.length_le
        rw [length_drop] at inRest
        have cleanLater := ((clean_cons some_left isLongest).mp clean).2
        rw [drop_drop] at cleanLater
        exact ih (by omega) (by omega) cleanLater _

omit distinct bytes

theorem LongestMatches.decode {ids : List Int} (longestMatches : LongestMatches tokens text ids) :
    (ids.map (loadVocab tokens).decode).flatten = text := by
  induction longestMatches with
  | nil => rfl
  | @cons token rest id ids isToken some_left isLongest later ih =>
    have inVocab := (List.getElem?_eq_some_iff.mp isToken).1
    have isDecoded : (loadVocab tokens).decode id = token := by
      unfold Tiktoken.decode
      have inRange : ¬((id : Int) < 0 ∨ (id : Int) ≥ (loadVocab tokens).decoder_.length) := by
        show ¬((id : Int) < 0 ∨ (id : Int) ≥ tokens.length)
        omega
      rw [if_neg inRange, Int.toNat_natCast]
      show tokens.getD id [] = token
      rw [getD_eq_getElem?_getD, isToken, Option.getD_some]
    rw [map_cons, flatten_cons, isDecoded, ih]
    conv_rhs => rw [← take_append_drop token.length rest]
    rw [← prefix_iff_eq_take.mp isLongest.isPrefix]

theorem clean_of_encode (distinct : tokens.Nodup) (bytes : ∀ byte, [byte] ∈ tokens) {ids : List Int}
    (encoded : (loadVocab tokens).encode fuel text = some ids) :
    Clean tokens text := by
  cases text with
  | nil => exact fun rest reached some_left => absurd (reached_nil reached) some_left
  | cons byte rest =>
    exact (encodeLoop_matches distinct bytes (Nat.zero_le _) encoded).1

theorem encode_of_clean (distinct : tokens.Nodup) (bytes : ∀ byte, [byte] ∈ tokens)
    (clean : Clean tokens text) :
    ∃ fuel ids, (loadVocab tokens).encode fuel text = some ids ∧ LongestMatches tokens text ids ∧
        (ids.map (loadVocab tokens).decode).flatten = text := by
  cases text with
  | nil => exact ⟨0, [], rfl, LongestMatches.nil, rfl⟩
  | cons byte rest =>
    rcases encodeLoop_ends distinct bytes (Nat.zero_le _) (Nat.lt_succ_self _) clean [] with
      ⟨ids, encoded⟩
    rcases (encodeLoop_matches distinct bytes (Nat.zero_le _) encoded).2 with
      ⟨more, isResult, longestMatches⟩
    rw [nil_append] at isResult
    subst isResult
    refine ⟨(byte :: rest).length + 1, ids, ?_, longestMatches, ?_⟩
    · exact encoded
    · exact longestMatches.decode

/--
The text is encoded by its longest tokens, and decoded again, exactly if no
search reads on behind its end.
-/
theorem encode_lossless_iff {tokens : List (List Byte)} (distinct : tokens.Nodup)
    (bytes : ∀ byte, [byte] ∈ tokens) (text : List Byte) :
    (∃ fuel ids, (loadVocab tokens).encode fuel text = some ids ∧ LongestMatches tokens text ids ∧
          (ids.map (loadVocab tokens).decode).flatten = text) ↔
      ∀ rest, Reached tokens text rest → rest ≠ [] → ∀ token ∈ tokens, ¬rest ++ [0] <+: token := by
  show _ ↔ Clean tokens text
  constructor
  · rintro ⟨fuel, ids, encoded, -, -⟩
    exact clean_of_encode distinct bytes encoded
  · intro clean
    exact encode_of_clean distinct bytes clean

/-- The tokens of one byte. -/
def singleBytes : List (List Byte) := (List.finRange 256).map fun number => [UInt8.ofFin number]

theorem singleBytes_mem (byte : Byte) : [byte] ∈ singleBytes := by
  rw [singleBytes, mem_map]
  exact ⟨byte.toFin, mem_finRange _, rfl⟩

theorem singleBytes_length (member : token ∈ singleBytes) : token.length = 1 := by
  rcases mem_map.mp member with ⟨number, -, rfl⟩
  rfl

theorem singleBytes_nodup : singleBytes.Nodup := by
  apply (nodup_finRange 256).map
  intro number number' same
  have sameByte := (List.cons.inj same).1
  have sameNumber := congrArg UInt8.toFin sameByte
  exact sameNumber

/-- With the tokens of one byte, a text of one byte has itself as token. -/
theorem encode_lossless_singleBytes :
    ∃ fuel ids, (loadVocab singleBytes).encode fuel [97] = some ids ∧
        LongestMatches singleBytes [97] ids ∧
        (ids.map (loadVocab singleBytes).decode).flatten = [97] := by
  apply (encode_lossless_iff singleBytes_nodup singleBytes_mem [97]).mpr
  intro rest _ some_left token member isPrefix
  have length := isPrefix.length_le
  rw [length_append, length_singleton, singleBytes_length member] at length
  have positive := length_pos_of_ne_nil some_left
  omega

/-- If a token begins with two `NUL`, a text of one is not encoded. -/
theorem encode_not_lossless :
    ¬∀ tokens : List (List Byte), tokens.Nodup → (∀ byte, [byte] ∈ tokens) → ∀ text, ∃ fuel ids,
          (loadVocab tokens).encode fuel text = some ids ∧ LongestMatches tokens text ids ∧
            (ids.map (loadVocab tokens).decode).flatten = text := by
  intro lossless
  have distinct : ([0, 0] :: singleBytes).Nodup := by
    rw [nodup_cons]
    refine ⟨?_, singleBytes_nodup⟩
    intro member
    exact absurd (singleBytes_length member) (by decide)
  have bytes : ∀ byte, [byte] ∈ [0, 0] :: singleBytes :=
    fun byte => mem_cons_of_mem _ (singleBytes_mem byte)
  rcases lossless _ distinct bytes [0] with ⟨fuel, ids, encoded, -, -⟩
  have clean := clean_of_encode distinct bytes encoded
  exact clean [0] Reached.start (cons_ne_nil _ _) [0, 0] mem_cons_self (prefix_refl _)

end Tiktoken

end Mnn.Llm
