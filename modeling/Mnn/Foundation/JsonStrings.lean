import Mathlib

/-!
# Strings of JSON texts

What a string of a JSON text stands for, as bytes.  A string stands for itself if and
only if it has no character that must be escaped, since all escapes are longer than
what they stand for.
-/

variable {fuel : Nat}

namespace Mnn.Foundation.JsonStrings

open List
open Option
open Nat

/-! ## Reading -/

/-- A quotation mark, a backslash or a control character. -/
def Special (c : UInt8) : Prop := c = 0x22 ∨ c = 0x5C ∨ c < 0x20

instance (c : UInt8) : Decidable (Special c) :=
  inferInstanceAs (Decidable (_ ∨ _ ∨ _))

def Plain (s : List UInt8) : Prop := ∀ c ∈ s, ¬Special c

instance (s : List UInt8) : Decidable (Plain s) :=
  inferInstanceAs (Decidable (∀ c ∈ s, ¬Special c))

def hexValue (c : UInt8) : Option Nat :=
  if 0x30 ≤ c ∧ c ≤ 0x39 then some (c.toNat - 0x30)
  else if 0x41 ≤ c ∧ c ≤ 0x46 then some (c.toNat - 0x37)
  else if 0x61 ≤ c ∧ c ≤ 0x66 then some (c.toNat - 0x57)
  else none

/-- Four hexadecimal digits. -/
def codeUnit : List UInt8 → Option (Nat × List UInt8)
  | a :: b :: c :: d :: rest => do
      let a ← hexValue a
      let b ← hexValue b
      let c ← hexValue c
      let d ← hexValue d
      return (((a * 16 + b) * 16 + c) * 16 + d, rest)
  | _ => none

def utf8 (codePoint : Nat) : List UInt8 := String.utf8EncodeChar (Char.ofNat codePoint)

/-- The code point behind `\u`, of which the second half of a pair has its own. -/
def unicode (s : List UInt8) : Option (List UInt8 × List UInt8) := do
  let (unit, rest) ← codeUnit s
  if 0xD800 ≤ unit ∧ unit < 0xDC00 then
    match rest with
    | 0x5C :: 0x75 :: rest => do
        let (low, rest) ← codeUnit rest
        if 0xDC00 ≤ low ∧ low < 0xE000 then
          return (utf8 (0x10000 + (unit - 0xD800) * 0x400 + (low - 0xDC00)), rest)
        else
          none
    | _ => none
  else if 0xDC00 ≤ unit ∧ unit < 0xE000 then
    none
  else
    return (utf8 unit, rest)

/-- What an escape stands for, behind its backslash. -/
def escaped : List UInt8 → Option (List UInt8 × List UInt8)
  | 0x22 :: rest => some ([0x22], rest)
  | 0x5C :: rest => some ([0x5C], rest)
  | 0x2F :: rest => some ([0x2F], rest)
  | 0x62 :: rest => some ([0x08], rest)
  | 0x66 :: rest => some ([0x0C], rest)
  | 0x6E :: rest => some ([0x0A], rest)
  | 0x72 :: rest => some ([0x0D], rest)
  | 0x74 :: rest => some ([0x09], rest)
  | 0x75 :: rest => unicode rest
  | _ => none

/-- The string behind its first quotation mark, and what is behind the last one. -/
def readString : Nat → List UInt8 → Option (List UInt8 × List UInt8)
  | fuel + 1, c :: rest =>
    if c = 0x22 then
      some ([], rest)
    else if c = 0x5C then do
      let (first, rest) ← escaped rest
      let (later, rest) ← readString fuel rest
      return (first ++ later, rest)
    else if c < 0x20 then
      none
    else do
      let (later, rest) ← readString fuel rest
      return (c :: later, rest)
  | _, _ => none

/-! ## Lengths -/

variable {s out rest : List UInt8}

theorem length_utf8_le (codePoint : Nat) : (utf8 codePoint).length ≤ 4 := by
  rw [utf8, String.length_utf8EncodeChar]
  exact Char.utf8Size_le_four _

theorem codeUnit_eq_some {unit : Nat} (isUnit : codeUnit s = some (unit, rest)) :
    ∃ raw, s = raw ++ rest ∧ raw.length = 4 := by
  match s with
  | a :: b :: c :: d :: other =>
    refine ⟨[a, b, c, d], ?_, rfl⟩
    rw [codeUnit] at isUnit
    obtain ⟨_, _, isUnit⟩ := bind_eq_some_iff.mp isUnit
    obtain ⟨_, _, isUnit⟩ := bind_eq_some_iff.mp isUnit
    obtain ⟨_, _, isUnit⟩ := bind_eq_some_iff.mp isUnit
    obtain ⟨_, _, isUnit⟩ := bind_eq_some_iff.mp isUnit
    obtain ⟨-, rfl⟩ := Prod.mk.inj (some.inj isUnit)
    rfl
  | [] | [_] | [_, _] | [_, _, _] => cases isUnit

theorem unicode_eq_some (isUnicode : unicode s = some (out, rest)) :
    ∃ raw, s = raw ++ rest ∧ out.length ≤ raw.length := by
  obtain ⟨⟨unit, behind⟩, isUnit, isOut⟩ := bind_eq_some_iff.mp isUnicode
  obtain ⟨raw, rfl, size⟩ := codeUnit_eq_some isUnit
  dsimp only at isOut
  split at isOut
  · split at isOut
    · rename_i behind
      obtain ⟨⟨low, last⟩, isLow, isLast⟩ := bind_eq_some_iff.mp isOut
      obtain ⟨raw', rfl, size'⟩ := codeUnit_eq_some isLow
      dsimp only at isLast
      split at isLast
      · obtain ⟨rfl, rfl⟩ := Prod.mk.inj (some.inj isLast)
        have most := length_utf8_le (0x10000 + (unit - 0xD800) * 0x400 + (low - 0xDC00))
        refine ⟨raw ++ 0x5C :: 0x75 :: raw', by simp, ?_⟩
        rw [length_append, length_cons, length_cons]
        omega
      · cases isLast
    · cases isOut
  · split at isOut
    · cases isOut
    · obtain ⟨rfl, rfl⟩ := Prod.mk.inj (some.inj isOut)
      have most := length_utf8_le unit
      exact ⟨raw, rfl, by omega⟩

theorem escaped_eq_some (isEscape : escaped s = some (out, rest)) :
    ∃ raw, s = raw ++ rest ∧ out.length ≤ raw.length := by
  unfold escaped at isEscape
  split at isEscape
  case h_9 behind =>
    obtain ⟨raw, rfl, le⟩ := unicode_eq_some isEscape
    exact ⟨0x75 :: raw, rfl, le_succ_of_le le⟩
  case h_10 => cases isEscape
  all_goals
    obtain ⟨rfl, rfl⟩ := Prod.mk.inj (some.inj isEscape)
    exact ⟨[_], rfl, Nat.le_refl 1⟩

/-- What is read is no longer than its text, and as long only if it is its text. -/
theorem readString_eq_some (isString : readString fuel s = some (out, rest)) :
    ∃ raw, s = raw ++ 0x22 :: rest ∧ out.length ≤ raw.length ∧
      (out.length = raw.length → raw = out ∧ Plain raw) := by
  induction fuel generalizing s out with
  | zero => cases isString
  | succ fuel ih =>
    cases s with
    | nil => cases isString
    | cons c s =>
      rw [readString] at isString
      split at isString
      · rename_i isQuote
        obtain ⟨rfl, rfl⟩ := Prod.mk.inj (some.inj isString)
        rw [isQuote]
        exact ⟨[], rfl, Nat.le_refl 0, fun _ => ⟨rfl, fun c isMem => by cases isMem⟩⟩
      rename_i noQuote
      split at isString
      · obtain ⟨⟨first, behind⟩, isEscape, isString⟩ := bind_eq_some_iff.mp isString
        obtain ⟨⟨later, last⟩, isLater, isString⟩ := bind_eq_some_iff.mp isString
        obtain ⟨rfl, rfl⟩ := Prod.mk.inj (some.inj isString)
        obtain ⟨raw, rfl, le⟩ := escaped_eq_some isEscape
        obtain ⟨raw', rfl, le', -⟩ := ih isLater
        refine ⟨c :: (raw ++ raw'), by simp, ?_, fun same => ?_⟩
        · rw [length_append, length_cons, length_append]
          omega
        · rw [length_append, length_cons, length_append] at same
          omega
      rename_i noBackslash
      split at isString
      · cases isString
      rename_i noControl
      obtain ⟨⟨later, last⟩, isLater, isString⟩ := bind_eq_some_iff.mp isString
      obtain ⟨rfl, rfl⟩ := Prod.mk.inj (some.inj isString)
      obtain ⟨raw, rfl, le, plain⟩ := ih isLater
      refine ⟨c :: raw, rfl, succ_le_succ le, fun same => ?_⟩
      obtain ⟨rfl, isPlain⟩ := plain (succ.inj same)
      refine ⟨rfl, forall_mem_cons.mpr ⟨?_, isPlain⟩⟩
      rintro (isQuote | isBackslash | isControl)
      · exact noQuote isQuote
      · exact noBackslash isBackslash
      · exact noControl isControl

/-! ## Plain strings -/

theorem readString_cons {c : UInt8} (plain : ¬Special c) (s : List UInt8) :
    readString (fuel + 1) (c :: s) = (readString fuel s).map fun read => (c :: read.1, read.2) := by
  rw [readString, if_neg fun isQuote => plain (.inl isQuote),
    if_neg fun isBackslash => plain (.inr (.inl isBackslash)),
    if_neg fun isControl => plain (.inr (.inr isControl))]
  cases readString fuel s <;> rfl

theorem readString_escape {c : UInt8} {escape : List UInt8}
    (stands : escaped (escape ++ s) = some ([c], s)) :
    readString (fuel + 1) (0x5C :: escape ++ s) =
      (readString fuel s).map fun read => (c :: read.1, read.2) := by
  rw [cons_append, readString, if_neg (by decide), if_pos rfl, stands]
  show ((readString fuel s).bind fun read => some ([c] ++ read.1, read.2)) = _
  cases readString fuel s <;> rfl

theorem readString_plain {key : List UInt8} (plain : Plain key)
    (enough : key.length < fuel) : readString fuel (key ++ 0x22 :: rest) = some (key, rest) := by
  induction key generalizing fuel with
  | nil =>
    cases fuel with
    | zero => cases enough
    | succ fuel => rfl
  | cons c key ih =>
    cases fuel with
    | zero => cases enough
    | succ fuel =>
      obtain ⟨isPlain, plain⟩ := forall_mem_cons.mp plain
      rw [cons_append, readString_cons isPlain, ih plain (lt_of_succ_lt_succ enough)]
      rfl

/-- Between quotation marks a string stands for itself if and only if it is plain. -/
theorem readString_eq_self_iff {key : List UInt8} (enough : key.length < fuel) :
    readString fuel (key ++ 0x22 :: rest) = some (key, rest) ↔ Plain key := by
  refine ⟨fun isKey => ?_, fun plain => readString_plain plain enough⟩
  obtain ⟨raw, isRaw, -, plain⟩ := readString_eq_some isKey
  have same : raw = key := (append_cancel_right isRaw).symm
  rw [same] at plain
  exact (plain rfl).2

end Mnn.Foundation.JsonStrings
