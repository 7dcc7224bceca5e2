import Mnn.Foundation.BitFields
import Mnn.Foundation.PairCodes

/-!
# UTF-8 and the characters of bytes

`utf8_decode` and the 256 characters that byte-level tokenizers write for bytes.
A character of a byte is one byte, which is the byte itself, or two of them.
-/

variable {first second byte : Byte} {b n left code index : Nat}

namespace Mnn.Utf8

open Mnn.Foundation BitFields PairCodes
open List
open Option

/-! ## Code points -/

def isContinuation (byte : Byte) : Bool := byte &&& 0xC0 = 0x80

/-- Whether there is a continuation byte. -/
def continues (src : List Byte) (i : Nat) : Bool := src[i]?.any isContinuation

/-- The bits of a continuation byte. -/
def low (src : List Byte) (i : Nat) : Nat := (src[i]?.getD 0 &&& 0x3F).toNat

/-- How many bytes are consumed, and the code point; an error consumes one. -/
def utf8_decode (src : List Byte) : Nat × Nat :=
  match src with
  | [] => (1, 0xFFFD)
  | b0 :: _ =>
    if b0.toNat < 0x80 then
      (1, b0.toNat)
    else if b0 &&& 0xE0 = 0xC0 ∧ continues src 1 then
      let cp := (b0 &&& 0x1F).toNat <<< 6 ||| low src 1
      if 0x80 ≤ cp then (2, cp) else (1, 0xFFFD)
    else if b0 &&& 0xF0 = 0xE0 ∧ continues src 1 ∧ continues src 2 then
      let cp := (b0 &&& 0x0F).toNat <<< 12 ||| low src 1 <<< 6 ||| low src 2
      if 0x800 ≤ cp ∧ (cp < 0xD800 ∨ 0xDFFF < cp) then (3, cp) else (1, 0xFFFD)
    else if b0 &&& 0xF8 = 0xF0 ∧ continues src 1 ∧ continues src 2 ∧
        continues src 3 then
      let cp :=
        (b0 &&& 0x07).toNat <<< 18 ||| low src 1 <<< 12 ||| low src 2 <<< 6 ||| low src 3
      if 0x10000 ≤ cp ∧ cp ≤ 0x10FFFF then (4, cp) else (1, 0xFFFD)
    else
      (1, 0xFFFD)

/-- The bytes of the next code point. -/
inductive Consumed : Nat → List Byte → Prop
  | one (src : List Byte) : Consumed 1 src
  | two {b0 b1 : Byte} (rest : List Byte) :
      b0 &&& 0xE0 = 0xC0 → isContinuation b1 → Consumed 2 (b0 :: b1 :: rest)
  | three {b0 b1 b2 : Byte} (rest : List Byte) :
      b0 &&& 0xF0 = 0xE0 → isContinuation b1 → isContinuation b2 →
        Consumed 3 (b0 :: b1 :: b2 :: rest)
  | four {b0 b1 b2 b3 : Byte} (rest : List Byte) :
      b0 &&& 0xF8 = 0xF0 → isContinuation b1 → isContinuation b2 →
        isContinuation b3 → Consumed 4 (b0 :: b1 :: b2 :: b3 :: rest)

theorem consumed (src : List Byte) : Consumed (utf8_decode src).1 src := by
  cases src with
  | nil => exact .one _
  | cons b0 rest =>
    rw [utf8_decode]
    by_cases ascii : b0.toNat < 0x80
    · rw [if_pos ascii]
      exact .one _
    rw [if_neg ascii]
    by_cases isTwo : b0 &&& 0xE0 = 0xC0 ∧ continues (b0 :: rest) 1
    · rw [if_pos isTwo]
      cases rest with
      | nil => exact absurd isTwo.2 Bool.false_ne_true
      | cons b1 rest =>
        dsimp only
        split
        · exact .two rest isTwo.1 isTwo.2
        · exact .one _
    rw [if_neg isTwo]
    by_cases isThree : b0 &&& 0xF0 = 0xE0 ∧ continues (b0 :: rest) 1 ∧ continues (b0 :: rest) 2
    · rw [if_pos isThree]
      match rest, isThree with
      | [], ⟨_, next, _⟩ => exact absurd next Bool.false_ne_true
      | [_], ⟨_, _, last⟩ => exact absurd last Bool.false_ne_true
      | b1 :: b2 :: rest, ⟨lead, next, last⟩ =>
        dsimp only
        split
        · exact .three rest lead next last
        · exact .one _
    rw [if_neg isThree]
    by_cases isFour : b0 &&& 0xF8 = 0xF0 ∧ continues (b0 :: rest) 1 ∧
        continues (b0 :: rest) 2 ∧ continues (b0 :: rest) 3
    · rw [if_pos isFour]
      match rest, isFour with
      | [], ⟨_, next, _⟩ => exact absurd next Bool.false_ne_true
      | [_], ⟨_, _, third, _⟩ => exact absurd third Bool.false_ne_true
      | [_, _], ⟨_, _, _, last⟩ => exact absurd last Bool.false_ne_true
      | b1 :: b2 :: b3 :: rest, ⟨lead, next, third, last⟩ =>
        dsimp only
        split
        · exact .four rest lead next third last
        · exact .one _
    rw [if_neg isFour]
    exact .one _

theorem utf8_decode_pos (src : List Byte) : 0 < (utf8_decode src).1 := by
  have read := consumed src
  generalize (utf8_decode src).1 = count at read
  cases read with
  | _ => decide

theorem utf8_decode_le {src : List Byte} (some : src ≠ []) : (utf8_decode src).1 ≤ src.length := by
  have read := consumed src
  generalize (utf8_decode src).1 = count at read
  cases read with
  | one => exact length_pos_of_ne_nil some
  | two rest => exact Nat.le_add_left 2 rest.length
  | three rest => exact Nat.le_add_left 3 rest.length
  | four rest => exact Nat.le_add_left 4 rest.length

/-! ## The characters of bytes -/

def u2u (cp : Nat) : List Byte :=
  if cp ≤ 0x7F then
    [BitVec.ofNat 8 cp]
  else if cp ≤ 0x7FF then
    [BitVec.ofNat 8 (0xC0 ||| cp >>> 6), BitVec.ofNat 8 (0x80 ||| (cp &&& 0x3F))]
  else if cp ≤ 0xFFFF then
    [BitVec.ofNat 8 (0xE0 ||| cp >>> 12), BitVec.ofNat 8 (0x80 ||| (cp >>> 6 &&& 0x3F)),
      BitVec.ofNat 8 (0x80 ||| (cp &&& 0x3F))]
  else
    []

/-- The bytes that stand for themselves as code points. -/
def isPrintable (b : Nat) : Bool := (33 ≤ b ∧ b ≤ 126) ∨ (161 ≤ b ∧ b ≤ 172) ∨ (174 ≤ b ∧ b ≤ 255)

/-- The code points for the bytes from some byte on; others count from 256. -/
def byteCodesFrom (b n : Nat) : Nat → List Nat
  | 0 => []
  | left + 1 =>
    if isPrintable b then
      b :: byteCodesFrom (b + 1) n left
    else
      (256 + n) :: byteCodesFrom (b + 1) (n + 1) left

def byteCodes : List Nat := byteCodesFrom 0 0 256

def create_bytes_char_map : List (List Byte) := byteCodes.map u2u

def byte_map (byte : Byte) : List Byte := create_bytes_char_map.getD byte.toNat []

/-- The byte of a character, if it is one of these. -/
def inverse_map (ch : List Byte) : Option Byte :=
  (create_bytes_char_map.idxOf? ch).map (BitVec.ofNat 8)

/-- The code point of a byte that stands for itself, or one behind the bytes. -/
theorem mem_byteCodesFrom (inBytes : b + left ≤ 256) (member : code ∈ byteCodesFrom b n left) :
    (b ≤ code ∧ code < 256) ∨ 256 + n ≤ code := by
  induction left generalizing b n with
  | zero => exact absurd member not_mem_nil
  | succ left ih =>
    rw [byteCodesFrom] at member
    split at member
    · rcases mem_cons.mp member with rfl | member
      · exact Or.inl ⟨le_refl _, by omega⟩
      · rcases ih (by omega) member with ⟨le, small⟩ | large
        · exact Or.inl ⟨by omega, small⟩
        · exact Or.inr large
    · rcases mem_cons.mp member with rfl | member
      · exact Or.inr (le_refl _)
      · rcases ih (by omega) member with ⟨le, small⟩ | large
        · exact Or.inl ⟨by omega, small⟩
        · exact Or.inr (by omega)

theorem nodup_byteCodesFrom (inBytes : b + left ≤ 256) :
    (byteCodesFrom b n left).Nodup := by
  induction left generalizing b n with
  | zero => exact nodup_nil
  | succ left ih =>
    rw [byteCodesFrom]
    split
    · refine nodup_cons.mpr ⟨fun member => ?_, ih (by omega)⟩
      rcases mem_byteCodesFrom (by omega) member with ⟨le, -⟩ | large
      · exact absurd le (Nat.not_succ_le_self b)
      · omega
    · refine nodup_cons.mpr ⟨fun member => ?_, ih (by omega)⟩
      rcases mem_byteCodesFrom (by omega) member with ⟨-, small⟩ | large
      · omega
      · omega

theorem nodup_byteCodes : byteCodes.Nodup := nodup_byteCodesFrom (by decide)

theorem length_byteCodesFrom (b n left : Nat) : (byteCodesFrom b n left).length = left := by
  induction left generalizing b n with
  | zero => rfl
  | succ left ih =>
    rw [byteCodesFrom]
    split
    · rw [length_cons, ih]
    · rw [length_cons, ih]

theorem length_create_bytes_char_map : create_bytes_char_map.length = 256 := by
  rw [create_bytes_char_map, length_map]
  exact length_byteCodesFrom 0 0 256

theorem getElem?_byteCodesFrom (isCode : (byteCodesFrom b n left)[index]? = some code) :
    (isPrintable (b + index) ∧ code = b + index) ∨ (256 ≤ code ∧ code ≤ 256 + n + index) := by
  induction left generalizing b n index with
  | zero => nomatch isCode
  | succ left ih =>
    rw [byteCodesFrom] at isCode
    cases index with
    | zero =>
      split at isCode
      · rename_i printable
        exact Or.inl ⟨printable, (some.inj isCode).symm⟩
      · exact Or.inr ⟨by have := some.inj isCode; omega,
          by have := some.inj isCode; omega⟩
    | succ index =>
      split at isCode
      · rcases ih isCode with ⟨printable, same⟩ | ⟨ge, le⟩
        · exact Or.inl ⟨by rwa [add_right_comm] at printable, by omega⟩
        · exact Or.inr ⟨ge, by omega⟩
      · rcases ih isCode with ⟨printable, same⟩ | ⟨ge, le⟩
        · exact Or.inl ⟨by rwa [add_right_comm] at printable, by omega⟩
        · exact Or.inr ⟨ge, by omega⟩

theorem byteCodes_range (isCode : byteCodes[index]? = some code) :
    (code = index ∧ index < 0x80) ∨ (0x80 ≤ code ∧ code < 0x200) := by
  obtain ⟨inside, -⟩ := List.getElem?_eq_some_iff.mp isCode
  rw [byteCodes, length_byteCodesFrom] at inside
  rcases getElem?_byteCodesFrom isCode with ⟨printable, same⟩ | ⟨ge, le⟩
  · rw [zero_add] at same
    subst same
    by_cases ascii : code < 0x80
    · exact Or.inl ⟨rfl, ascii⟩
    · exact Or.inr ⟨by omega, by omega⟩
  · exact Or.inr ⟨by omega, by omega⟩

/-! ## One byte or two -/

/-- A lead byte and its continuation, which are read as the code point. -/
def IsTwo (code : Nat) : List Byte → Bool
  | [first, second] =>
    first &&& 0xE0 = 0xC0 && isContinuation second && utf8_decode [first, second] = (2, code)
  | _ => false

theorem isTwo_u2u : ∀ code < 0x200, 0x80 ≤ code → IsTwo code (u2u code) := by
  decide +kernel

theorem not_lead_of_isContinuation : ∀ byte : Byte, isContinuation byte → byte &&& 0xE0 ≠ 0xC0 := by
  decide

theorem not_lead_three : ∀ byte : Byte, byte &&& 0xF0 = 0xE0 → byte &&& 0xE0 ≠ 0xC0 := by
  decide

theorem not_lead_four : ∀ byte : Byte, byte &&& 0xF8 = 0xF0 → byte &&& 0xE0 ≠ 0xC0 := by
  decide

theorem not_ascii_of_lead : ∀ byte : Byte, byte &&& 0xE0 = 0xC0 → 0x80 ≤ byte.toNat := by
  decide

theorem utf8_decode_two (lead : first &&& 0xE0 = 0xC0)
    (next : isContinuation second) (rest : List Byte) :
    utf8_decode (first :: second :: rest) = utf8_decode [first, second] := by
  have notAscii : ¬first.toNat < 0x80 := Nat.not_lt_of_le (not_ascii_of_lead first lead)
  have here (rest : List Byte) :
      first &&& 0xE0 = 0xC0 ∧ continues (first :: second :: rest) 1 :=
    ⟨lead, next⟩
  rw [utf8_decode, utf8_decode, if_neg notAscii, if_neg notAscii, if_pos (here rest),
    if_pos (here [])]
  rfl

theorem inverse_map_eq_some {ch : List Byte} :
    inverse_map ch = some byte ↔ create_bytes_char_map[byte.toNat]? = some ch := by
  have nodup : create_bytes_char_map.Nodup := by
    refine List.Nodup.map_on (fun code member code' member' same => ?_) nodup_byteCodes
    obtain ⟨index, isCode⟩ := List.getElem?_of_mem member
    obtain ⟨index', isCode'⟩ := List.getElem?_of_mem member'
    rcases byteCodes_range isCode with ⟨rfl, ascii⟩ | ⟨ge, less⟩
    · rcases byteCodes_range isCode' with ⟨rfl, ascii'⟩ | ⟨ge', less'⟩
      · rw [u2u, u2u, if_pos (Nat.le_of_lt_succ ascii), if_pos (Nat.le_of_lt_succ ascii')] at same
        have bytes := congrArg BitVec.toNat (List.cons.inj same).1
        rw [BitVec.toNat_ofNat, BitVec.toNat_ofNat] at bytes
        omega
      · have isTwo := isTwo_u2u code' less' ge'
        rw [← same, u2u, if_pos (Nat.le_of_lt_succ ascii)] at isTwo
        nomatch isTwo
    · have isTwo := isTwo_u2u code less ge
      rcases byteCodes_range isCode' with ⟨rfl, ascii'⟩ | ⟨ge', less'⟩
      · rw [same, u2u, if_pos (Nat.le_of_lt_succ ascii')] at isTwo
        nomatch isTwo
      · have isTwo' := isTwo_u2u code' less' ge'
        rw [← same] at isTwo'
        generalize u2u code = ch at isTwo isTwo'
        match ch, isTwo, isTwo' with
        | [first, second], isTwo, isTwo' =>
          simp only [IsTwo, Bool.and_eq_true, decide_eq_true_eq] at isTwo isTwo'
          exact (Prod.mk.inj (isTwo.2.symm.trans isTwo'.2)).2
  have small (index : Nat) (inside : index < create_bytes_char_map.length) :
      (BitVec.ofNat 8 index).toNat = index := by
    rw [length_create_bytes_char_map] at inside
    rw [BitVec.toNat_ofNat]
    omega
  unfold inverse_map
  rw [map_eq_some_iff]
  constructor
  · rintro ⟨index, isIndex, rfl⟩
    obtain ⟨inside, same, -⟩ := List.idxOf?_eq_some_iff.mp isIndex
    rw [small index inside]
    exact List.getElem?_eq_some_iff.mpr ⟨inside, same⟩
  · intro isCharacter
    obtain ⟨inside, same⟩ := List.getElem?_eq_some_iff.mp isCharacter
    refine ⟨byte.toNat, List.idxOf?_eq_some_iff.mpr ⟨inside, same, ?_⟩, BitVec.ofNat_toNat ..⟩
    intro index less other
    rw [← same] at other
    exact ne_of_lt less ((nodup.getElem_inj_iff).mp other)

/-- The characters of bytes are the byte itself and pairs of bytes. -/
theorem inverse_map_cases {ch : List Byte} (isCharacter : inverse_map ch = some byte) :
    (ch = [byte] ∧ byte.toNat < 0x80) ∨ ∃ first second code, ch = [first, second] ∧
      first &&& 0xE0 = 0xC0 ∧ isContinuation second ∧ utf8_decode [first, second] = (2, code) := by
  have isMapped := inverse_map_eq_some.mp isCharacter
  rw [create_bytes_char_map, List.getElem?_map, map_eq_some_iff] at isMapped
  obtain ⟨code, isCode, rfl⟩ := isMapped
  rcases byteCodes_range isCode with ⟨rfl, ascii⟩ | ⟨ge, less⟩
  · left
    refine ⟨?_, ascii⟩
    rw [u2u, if_pos (Nat.le_of_lt_succ ascii), BitVec.ofNat_toNat]
    rfl
  · right
    have isTwo := isTwo_u2u code less ge
    generalize u2u code = ch at isTwo
    match ch, isTwo with
    | [first, second], isTwo =>
      simp only [IsTwo, Bool.and_eq_true, decide_eq_true_eq] at isTwo
      exact ⟨first, second, code, rfl, isTwo.1.1, isTwo.1.2, isTwo.2⟩

/-! ## Reading characters as bytes -/

/-- Characters of bytes become these bytes, others stay. -/
def decodeCharactersFuel : Nat → List Byte → List Byte
  | 0, _ => []
  | _ + 1, [] => []
  | fuel + 1, t =>
    let r := (utf8_decode t).1
    (match inverse_map (t.take r) with
      | some byte => [byte]
      | none => t.take r) ++
      decodeCharactersFuel fuel (t.drop r)

/-- There is fuel for each byte. -/
def decodeCharacters (t : List Byte) : List Byte := decodeCharactersFuel t.length t

/-- The byte of a character of two bytes. -/
def bytePair (first second : Byte) : Option Byte := inverse_map [first, second]

theorem bytePair_eq_some (isPair : bytePair first second = some byte) :
    first &&& 0xE0 = 0xC0 ∧ isContinuation second ∧ (utf8_decode [first, second]).1 = 2 := by
  rcases inverse_map_cases isPair with
    ⟨impossible, -⟩ | ⟨_, _, code, same, lead, next, two⟩
  · nomatch impossible
  · simp only [List.cons.injEq, and_true] at same
    obtain ⟨rfl, rfl⟩ := same
    exact ⟨lead, next, congrArg Prod.fst two⟩

/-- No pair begins with a byte that leads no character of two bytes. -/
theorem single_of_not_lead (notLead : first &&& 0xE0 ≠ 0xC0) :
    Single bytePair first := by
  intro second
  cases isPair : bytePair first second with
  | none => rfl
  | some byte => exact absurd (bytePair_eq_some isPair).1 notLead

theorem separated_bytePair : Separated bytePair := by
  intro first second third value isPair
  exact single_of_not_lead (not_lead_of_isContinuation second (bytePair_eq_some isPair).2.1) third

/-- A character that is not the one of a byte is kept, byte by byte. -/
theorem decodeCharactersFuel_eq {fuel : Nat} {t : List Byte} (enough : t.length ≤ fuel) :
    decodeCharactersFuel fuel t = decodePairs bytePair t := by
  induction fuel generalizing t with
  | zero =>
    obtain rfl := length_eq_zero_iff.mp (Nat.le_zero.mp enough)
    rfl
  | succ fuel ih =>
    cases t with
    | nil => rfl
    | cons first rest =>
      rw [length_cons] at enough
      show (match inverse_map ((first :: rest).take (utf8_decode (first :: rest)).1) with
        | some byte => [byte]
        | none => (first :: rest).take (utf8_decode (first :: rest)).1) ++
          decodeCharactersFuel fuel ((first :: rest).drop (utf8_decode (first :: rest)).1) = _
      have read := consumed (first :: rest)
      generalize isCount : (utf8_decode (first :: rest)).1 = count at read
      cases read with
      | one _ =>
        have kept : (match inverse_map [first] with
              | some byte => [byte]
              | none => [first]) = [first] := by
          cases isCharacter : inverse_map [first] with
          | none => rfl
          | some byte =>
            rcases inverse_map_cases isCharacter with
              ⟨same, -⟩ | ⟨_, _, _, same, _⟩
            · exact same.symm
            · nomatch same
        have goesOn : decodePairs bytePair (first :: rest) =
            first :: decodePairs bytePair rest := by
          cases rest with
          | nil => rfl
          | cons second rest =>
            refine decodePairs_of_none rest ?_
            cases isPair : bytePair first second with
            | none => rfl
            | some byte =>
              obtain ⟨lead, next, two⟩ := bytePair_eq_some isPair
              rw [utf8_decode_two lead next, two] at isCount
              exact absurd isCount (by decide)
        rw [take_succ_cons, take_zero, kept, drop_succ_cons,
          drop_zero, ih (Nat.le_of_succ_le_succ enough), goesOn]
        rfl
      | @two _ second rest lead next =>
        have single := single_of_not_lead (not_lead_of_isContinuation second next)
        have inFuel : rest.length ≤ fuel := by
          rw [length_cons] at enough
          omega
        show (match bytePair first second with
          | some byte => [byte]
          | none => [first, second]) ++ decodeCharactersFuel fuel rest = _
        rw [ih inFuel]
        cases isPair : bytePair first second with
        | some byte =>
          rw [decodePairs_of_pair rest isPair]
          rfl
        | none =>
          rw [decodePairs_of_none rest isPair, single.decodePairs_cons]
          rfl
      | @three _ second third rest lead next last =>
        have inFuel : rest.length ≤ fuel := by
          rw [length_cons, length_cons] at enough
          omega
        have noCharacter : inverse_map [first, second, third] = none := by
          cases isCharacter : inverse_map [first, second, third] with
          | none => rfl
          | some byte =>
            rcases inverse_map_cases isCharacter with
              ⟨same, -⟩ | ⟨_, _, _, same, _⟩
            · nomatch same
            · nomatch same
        show (match inverse_map [first, second, third] with
          | some byte => [byte]
          | none => [first, second, third]) ++ decodeCharactersFuel fuel rest = _
        rw [noCharacter, ih inFuel,
          (single_of_not_lead (not_lead_three first lead)).decodePairs_cons,
          (single_of_not_lead (not_lead_of_isContinuation second next)).decodePairs_cons,
          (single_of_not_lead (not_lead_of_isContinuation third last)).decodePairs_cons]
        rfl
      | @four _ second third fourth rest lead next mid last =>
        have inFuel : rest.length ≤ fuel := by
          rw [length_cons, length_cons, length_cons] at enough
          omega
        have noCharacter : inverse_map [first, second, third, fourth] = none := by
          cases isCharacter : inverse_map [first, second, third, fourth] with
          | none => rfl
          | some byte =>
            rcases inverse_map_cases isCharacter with
              ⟨same, -⟩ | ⟨_, _, _, same, _⟩
            · nomatch same
            · nomatch same
        show (match inverse_map [first, second, third, fourth] with
          | some byte => [byte]
          | none => [first, second, third, fourth]) ++
            decodeCharactersFuel fuel rest = _
        rw [noCharacter, ih inFuel,
          (single_of_not_lead (not_lead_four first lead)).decodePairs_cons,
          (single_of_not_lead (not_lead_of_isContinuation second next)).decodePairs_cons,
          (single_of_not_lead (not_lead_of_isContinuation third mid)).decodePairs_cons,
          (single_of_not_lead (not_lead_of_isContinuation fourth last)).decodePairs_cons]
        rfl

theorem decodeCharacters_eq (t : List Byte) : decodeCharacters t = decodePairs bytePair t :=
  decodeCharactersFuel_eq (le_refl _)

end Mnn.Utf8
