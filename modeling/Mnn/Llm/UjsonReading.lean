import Mnn.Foundation.JsonStrings
import Mnn.Llm.JinjaText
import Mnn.Llm.UjsonOrder

/-!
# Reading of JSON texts

A parser of JSON texts, to compare what is printed with what was meant.  How numbers
are read is a parameter.  Fuel is used up by each value and each member, so that as
much as the length of the text is enough.
-/

variable {s rest string : List Byte} {fuel : Nat}

namespace Mnn.Llm.Ujson

open Mnn.Foundation.JsonStrings
open List
open Nat

/-! ## The parser -/

def isSpace (c : Byte) : Bool := c = 0x20 ∨ c = 0x09 ∨ c = 0x0A ∨ c = 0x0D

def skipSpace (s : List Byte) : List Byte := s.dropWhile isSpace

section Reading

variable (readNumber : List Byte → Option (Number × List Byte))

/-- A literal name or a number. -/
def readScalar (s : List Byte) : Option (Json × List Byte) :=
  if (text "null").isPrefixOf s then some (.null, s.drop 4)
  else if (text "true").isPrefixOf s then some (.bool true, s.drop 4)
  else if (text "false").isPrefixOf s then some (.bool false, s.drop 5)
  else (readNumber s).map fun read => (.number read.1, read.2)

mutual

def readValue : Nat → List Byte → Option (Json × List Byte)
  | 0, _ => none
  | fuel + 1, s =>
    match skipSpace s with
    | 0x22 :: s => (readString (s.length + 1) s).map fun read => (.string read.1, read.2)
    | 0x5B :: s =>
      match skipSpace s with
      | 0x5D :: s => some (.array [], s)
      | s => (readElements fuel s).map fun read => (.array read.1, read.2)
    | 0x7B :: s =>
      match skipSpace s with
      | 0x7D :: s => some (.object [], s)
      | s => (readMembers fuel s).map fun read => (.object read.1, read.2)
    | s => readScalar readNumber s

/-- The elements of an array, and its end. -/
def readElements : Nat → List Byte → Option (List Json × List Byte)
  | 0, _ => none
  | fuel + 1, s =>
    match readValue fuel s with
    | none => none
    | some (element, s) =>
      match skipSpace s with
      | 0x2C :: s =>
        (readElements fuel s).map fun read => (element :: read.1, read.2)
      | 0x5D :: s => some ([element], s)
      | _ => none

/-- The members of an object, and its end. -/
def readMembers : Nat → List Byte → Option (List (List Byte × Json) × List Byte)
  | 0, _ => none
  | fuel + 1, s =>
    match skipSpace s with
    | 0x22 :: s =>
      match readString (s.length + 1) s with
      | none => none
      | some (key, s) =>
        match skipSpace s with
        | 0x3A :: s =>
          match readValue fuel s with
          | none => none
          | some (value, s) =>
            match skipSpace s with
            | 0x2C :: s =>
              (readMembers fuel s).map fun read => ((key, value) :: read.1, read.2)
            | 0x7D :: s => some ([(key, value)], s)
            | _ => none
        | _ => none
    | _ => none

end

/-- The value of a whole text. -/
def readText (s : List Byte) : Option Json :=
  match readValue readNumber (s.length + 1) s with
  | some (value, rest) => if skipSpace rest = [] then some value else none
  | none => none

end Reading

/-! ## Strings -/

/-- A special character is written as an escape that stands for it. -/
theorem writeChar_special {c : Byte} (special : Special c) :
    ∃ escape, writeChar c = 0x5C :: escape ∧ ∀ s, escaped (escape ++ s) = some ([c], s) := by
  rcases special with rfl | rfl | isControl
  · exact ⟨_, rfl, fun s => rfl⟩
  · exact ⟨_, rfl, fun s => rfl⟩
  · have few : c.toNat < 32 := isControl
    rw [← @UInt8.ofNat_toNat c]
    interval_cases c.toNat
    all_goals exact ⟨_, rfl, fun s => rfl⟩

theorem writeChar_plain {c : Byte} (plain : ¬Special c) : writeChar c = [c] := by
  have noControl (d : Byte) (isControl : d < 0x20) : c ≠ d := by
    rintro rfl
    exact plain (.inr (.inr isControl))
  have noEscape : escape c = 0 := by
    rw [escape, if_neg (noControl _ (by decide)), if_neg (noControl _ (by decide)),
      if_neg (noControl _ (by decide)), if_neg (noControl _ (by decide)),
      if_neg (noControl _ (by decide)), if_neg fun isControl => plain (.inr (.inr isControl)),
      if_neg fun isQuote => plain (.inl isQuote),
      if_neg fun isBackslash => plain (.inr (.inl isBackslash))]
  rw [writeChar, if_pos noEscape]

theorem readString_writeChar (c : Byte) (s : List Byte) :
    readString (fuel + 1) (writeChar c ++ s) =
      (readString fuel s).map fun read => (c :: read.1, read.2) := by
  by_cases special : Special c
  · obtain ⟨escape, isEscape, stands⟩ := writeChar_special special
    rw [isEscape]
    exact readString_escape (stands s)
  · rw [writeChar_plain special]
    exact readString_cons special s

theorem readString_writeString (enough : s.length < fuel) :
    readString fuel (s.flatMap writeChar ++ 0x22 :: rest) = some (s, rest) := by
  induction s generalizing fuel with
  | nil =>
    cases fuel with
    | zero => cases enough
    | succ fuel => rfl
  | cons c s ih =>
    cases fuel with
    | zero => cases enough
    | succ fuel =>
      rw [flatMap_cons, append_assoc, readString_writeChar, ih (lt_of_succ_lt_succ enough)]
      rfl

end Mnn.Llm.Ujson

/-!
# The text of `tojson`

What `to_json_string` prints is read as the value with its members sorted, provided
that all keys are plain: keys are put between quotation marks as they are.
-/

namespace Mnn.Llm.Jinja

open List
open Nat

open Mnn.Foundation.JsonStrings
open Mnn.Llm.Ujson

/-! ## Texts that are read -/

variable {members : List (List Byte × List Byte)}

variable {values : List (List Byte × Json)}

section Reading

variable (readNumber : List Byte → Option (Number × List Byte))

/-- What may stand behind a value. -/
def Ends (rest : List Byte) : Prop := ∀ c ∈ rest.head?, isSpace c ∨ c = 0x2C ∨ c = 0x5D ∨ c = 0x7D

/-- The text does not begin with a space, and is read as the value. -/
structure ReadsAs (string : List Byte) (value : Json) : Prop where
  begins : ∀ rest, skipSpace (string ++ rest) = string ++ rest
  nonempty : string ≠ []
  opens : string.head? ≠ some 0x5D
  reads : ∀ rest, Ends rest → ∀ fuel ≥ string.length,
    readValue readNumber fuel (string ++ rest) = some (value, rest)

variable {readNumber}

section

variable {spaces : List Byte} (areSpaces : ∀ c ∈ spaces, isSpace c)

include areSpaces

theorem skipSpace_append (s : List Byte) : skipSpace (spaces ++ s) = skipSpace s := by
  induction spaces with
  | nil => rfl
  | cons c spaces ih =>
    obtain ⟨isFirst, areSpaces⟩ := forall_mem_cons.mp areSpaces
    rw [cons_append, skipSpace, dropWhile_cons, if_pos isFirst]
    exact ih areSpaces

theorem readValue_append (fuel : Nat) (s : List Byte) :
    readValue readNumber fuel (spaces ++ s) = readValue readNumber fuel s := by
  cases fuel with
  | zero => rfl
  | succ fuel => rw [readValue, readValue, skipSpace_append areSpaces]

theorem readElements_append (fuel : Nat) (s : List Byte) :
    readElements readNumber fuel (spaces ++ s) = readElements readNumber fuel s := by
  cases fuel with
  | zero => rfl
  | succ fuel => rw [readElements, readElements, readValue_append areSpaces]

theorem readMembers_append (fuel : Nat) (s : List Byte) :
    readMembers readNumber fuel (spaces ++ s) = readMembers readNumber fuel s := by
  cases fuel with
  | zero => rfl
  | succ fuel => rw [readMembers, readMembers, skipSpace_append areSpaces]

end

theorem apply_skipSpace {α : Type} {read : List Byte → α}
    (skips : ∀ {spaces}, (∀ c ∈ spaces, isSpace c) → ∀ s, read (spaces ++ s) = read s)
    (s : List Byte) : read (skipSpace s) = read s := by
  have same := @skips (s.takeWhile isSpace) (fun _ isMem => mem_takeWhile_imp isMem) (skipSpace s)
  rw [skipSpace, takeWhile_append_dropWhile] at same
  exact same.symm

theorem ends_cons {last : Byte} (isLast : last = 0x2C ∨ last = 0x5D ∨ last = 0x7D)
    (rest : List Byte) : Ends (last :: rest) := by
  intro c isHead
  obtain rfl : last = c := Option.some.inj isHead
  exact .inr isLast

theorem ends_space {spaces : List Byte} (areSpaces : ∀ c ∈ spaces, isSpace c)
    (ends : Ends s) : Ends (spaces ++ s) := by
  intro c isHead
  cases spaces with
  | nil => exact ends c isHead
  | cons d spaces =>
    obtain rfl : d = c := Option.some.inj isHead
    exact .inl (areSpaces d mem_cons_self)

/-- The text of a member. -/
def memberText (member : List Byte × List Byte) : List Byte :=
  0x22 :: member.1 ++ [0x22, 0x3A, 0x20] ++ member.2

theorem readMembers_member {key : List Byte} {value : Json} (plain : Plain key)
    (reads : ReadsAs readNumber string value) (ends : Ends rest) (enough : string.length ≤ fuel) :
    readMembers readNumber (fuel + 1) (memberText (key, string) ++ rest) =
      match skipSpace rest with
      | 0x2C :: s => (readMembers readNumber fuel s).map fun read =>
        ((key, value) :: read.1, read.2)
      | 0x7D :: s => some ([(key, value)], s)
      | _ => none := by
  have isText : memberText (key, string) ++ rest =
      0x22 :: (key ++ 0x22 :: 0x3A :: ([0x20] ++ (string ++ rest))) := by
    simp [memberText]
  have isKey : readString ((key ++ 0x22 :: 0x3A :: ([0x20] ++ (string ++ rest))).length + 1)
      (key ++ 0x22 :: 0x3A :: ([0x20] ++ (string ++ rest))) =
        some (key, 0x3A :: ([0x20] ++ (string ++ rest))) :=
    readString_plain plain (by rw [length_append]; omega)
  have isValue : readValue readNumber fuel ([0x20] ++ (string ++ rest)) = some (value, rest) := by
    rw [readValue_append (by decide +kernel), reads.reads rest ends fuel enough]
  have isQuote (s : List Byte) : skipSpace (0x22 :: s) = 0x22 :: s := rfl
  have isColon (s : List Byte) : skipSpace (0x3A :: s) = 0x3A :: s := rfl
  rw [readMembers, isText, isQuote]
  simp only [isKey, isColon, isValue]

theorem length_le_flatMap_writeChar (s : List Byte) : s.length ≤ (s.flatMap writeChar).length := by
  induction s with
  | nil => exact le_refl 0
  | cons c s ih =>
    have positive : 0 < (writeChar c).length := by
      unfold writeChar
      split_ifs <;> exact succ_pos _
    rw [flatMap_cons, length_append, length_cons]
    omega

theorem readsAs_string (s : List Byte) : ReadsAs readNumber (writeString s) (.string s) where
  begins rest := rfl
  nonempty := cons_ne_nil _ _
  opens := nofun
  reads rest _ fuel enough := by
    cases fuel with
    | zero => exact absurd enough (by simp [writeString])
    | succ fuel =>
      have isText : writeString s ++ rest = 0x22 :: (s.flatMap writeChar ++ 0x22 :: rest) := by
        simp [writeString]
      have size := length_le_flatMap_writeChar s
      have isString := @readString_writeString s rest _
        (show s.length < (s.flatMap writeChar ++ 0x22 :: rest).length + 1 by
          rw [length_append]
          omega)
      rw [isText, readValue]
      show (readString _ _).map _ = _
      rw [isString]
      rfl

theorem ReadsAs.scalar {c : Byte} {value : Json}
    (other : ¬isSpace c ∧ c ≠ 0x22 ∧ c ≠ 0x5B ∧ c ≠ 0x7B ∧ c ≠ 0x5D)
    (reads : ∀ rest, Ends rest → readScalar readNumber (c :: string ++ rest) = some (value, rest)) :
    ReadsAs readNumber (c :: string) value where
  begins rest := by
    rw [cons_append, skipSpace, dropWhile_cons, if_neg other.1]
  nonempty := cons_ne_nil _ _
  opens isClosing := other.2.2.2.2 (Option.some.inj isClosing)
  reads rest ends fuel enough := by
    cases fuel with
    | zero => exact absurd enough (not_succ_le_zero _)
    | succ fuel =>
      rw [readValue, cons_append, skipSpace, dropWhile_cons, if_neg other.1]
      rw [← reads rest ends]
      split
      · rename_i isHead
        exact absurd (List.cons.inj isHead).1 other.2.1
      · rename_i isHead
        exact absurd (List.cons.inj isHead).1 other.2.2.1
      · rename_i isHead
        exact absurd (List.cons.inj isHead).1 other.2.2.2.1
      · rfl

/-- Items between commas, and the loop that reads them up to the last byte. -/
structure ReadsItems {Item : Type} (readNumber : List Byte → Option (Number × List Byte))
    (first last : Byte) (ofItems : List Item → Json)
    (loop : Nat → List Byte → Option (List Item × List Byte)) (item : List Byte → Item → Prop) :
    Prop where
  start : ¬isSpace first ∧ first ≠ 0x5D
  opens : ∀ s, (skipSpace s).head? ≠ some last → ∀ fuel,
    readValue readNumber (fuel + 1) (first :: s) =
      (loop fuel s).map fun read => (ofItems read.1, read.2)
  begins : ∀ {string value}, item string value →
    ∀ rest, (skipSpace (string ++ rest)).head? ≠ some last
  skips : ∀ {spaces}, (∀ c ∈ spaces, isSpace c) → ∀ fuel s, loop fuel (spaces ++ s) = loop fuel s
  goesOn : ∀ {string value}, item string value → ∀ fuel ≥ string.length, ∀ rest,
    loop (fuel + 1) (string ++ 0x2C :: rest) =
      (loop fuel rest).map fun read => (value :: read.1, read.2)
  ends : ∀ {string value}, item string value → ∀ fuel ≥ string.length, ∀ {closing},
    (∀ c ∈ closing, isSpace c) → ∀ rest,
      loop (fuel + 1) (string ++ (closing ++ last :: rest)) = some ([value], rest)

section Nested

variable {Item : Type} {first last : Byte} {ofItems : List Item → Json}
  {loop : Nat → List Byte → Option (List Item × List Byte)} {item : List Byte → Item → Prop}
  {spaces opening closing : List Byte} {strings : List (List Byte)} {values : List Item}

section

variable (items : ReadsItems readNumber first last ofItems loop item)
  (areSpaces : ∀ c ∈ spaces, isSpace c)

include items areSpaces

theorem ReadsItems.intercalate (areClosing : ∀ c ∈ closing, isSpace c)
    (reads : List.Forall₂ item strings values) (some : strings ≠ []) (rest : List Byte)
    (enough : (List.intercalate (0x2C :: spaces) strings).length < fuel) :
    loop fuel (List.intercalate (0x2C :: spaces) strings ++ (closing ++ last :: rest)) =
      .some (values, rest) := by
  induction reads generalizing fuel with
  | nil => exact absurd rfl some
  | @cons string value strings values here later ih =>
    cases fuel with
    | zero => cases enough
    | succ fuel =>
      cases later with
      | nil =>
        rw [intercalate_singleton] at enough ⊢
        exact items.ends here fuel (le_of_lt_succ enough) areClosing rest
      | @cons string' value' strings values here' later =>
        rw [intercalate_cons_cons] at enough ⊢
        rw [length_append, length_append, length_cons] at enough
        have others := ih (cons_ne_nil _ _) (show _ < fuel by omega)
        rw [append_assoc, append_assoc, cons_append, items.goesOn here fuel (by omega),
          items.skips areSpaces, others]
        rfl

theorem ReadsItems.readsAs (areOpening : ∀ c ∈ opening, isSpace c)
    (areClosing : ∀ c ∈ closing, isSpace c) (reads : List.Forall₂ item strings values)
    (some : strings ≠ []) :
    ReadsAs readNumber
      (first :: (opening ++ (List.intercalate (0x2C :: spaces) strings ++ (closing ++ [last]))))
      (ofItems values) where
  begins rest := by
    rw [cons_append, skipSpace, dropWhile_cons, if_neg items.start.1]
  nonempty := cons_ne_nil _ _
  opens isClosing := items.start.2 (Option.some.inj isClosing)
  reads rest _ fuel enough := by
    have isText : opening ++ (List.intercalate (0x2C :: spaces) strings ++ (closing ++ [last])) ++
        rest = opening ++ (List.intercalate (0x2C :: spaces) strings ++
          (closing ++ last :: rest)) := by
      simp
    have begins : (skipSpace (List.intercalate (0x2C :: spaces) strings ++
        (closing ++ last :: rest))).head? ≠ .some last := by
      cases reads with
      | nil => exact absurd rfl some
      | @cons string value strings values here later =>
        obtain ⟨behind, isBehind⟩ : ∃ behind, List.intercalate (0x2C :: spaces)
            (string :: strings) = string ++ behind := by
          cases strings with
          | nil => exact ⟨[], by rw [intercalate_singleton, append_nil]⟩
          | cons string' strings =>
            exact ⟨_, by rw [intercalate_cons_cons, append_assoc]⟩
        rw [isBehind, append_assoc]
        exact items.begins here _
    cases fuel with
    | zero => exact absurd enough (not_succ_le_zero _)
    | succ fuel =>
      rw [length_cons, length_append, length_append, length_append, length_singleton] at enough
      rw [cons_append, isText, items.opens _ (by rwa [skipSpace_append areOpening]),
        items.skips areOpening, items.intercalate areSpaces areClosing reads some rest (by omega)]
      rfl

end

end Nested

theorem readsItems_array : ReadsItems readNumber 0x5B 0x5D .array (readElements readNumber)
      (ReadsAs readNumber) where
  start := by decide
  opens s goesOn fuel := by
    have isOpening : skipSpace (0x5B :: s) = 0x5B :: s := rfl
    rw [readValue, isOpening, ← apply_skipSpace (fun areSpaces => readElements_append areSpaces fuel)]
    show (match skipSpace s with
      | 0x5D :: s => some (Json.array [], s)
      | s => (readElements readNumber fuel s).map (Prod.map Json.array id)) = _
    split
    · rename_i isClosing
      rw [isClosing] at goesOn
      exact absurd rfl goesOn
    · rfl
  begins here rest := by
    rw [here.begins, head?_append_of_ne_nil _ here.nonempty]
    exact here.opens
  skips areSpaces := readElements_append areSpaces
  goesOn here fuel enough rest := by
    rw [readElements, here.reads _ (ends_cons (.inl rfl) _) fuel enough]
    rfl
  ends here fuel enough _ areClosing rest := by
    rw [readElements, here.reads _ (ends_space areClosing (ends_cons (.inr (.inl rfl)) rest)) fuel
      enough]
    dsimp only
    rw [skipSpace_append areClosing]
    rfl

theorem readsItems_object : ReadsItems readNumber 0x7B 0x7D .object (readMembers readNumber)
      fun text value => ∃ string, text = memberText (value.1, string) ∧ Plain value.1 ∧
        ReadsAs readNumber string value.2 where
  start := by decide
  opens s goesOn fuel := by
    have isOpening : skipSpace (0x7B :: s) = 0x7B :: s := rfl
    rw [readValue, isOpening, ← apply_skipSpace (fun areSpaces => readMembers_append areSpaces fuel)]
    show (match skipSpace s with
      | 0x7D :: s => some (Json.object [], s)
      | s => (readMembers readNumber fuel s).map (Prod.map Json.object id)) = _
    split
    · rename_i isClosing
      rw [isClosing] at goesOn
      exact absurd rfl goesOn
    · rfl
  begins := by
    rintro _ value ⟨string, rfl, -⟩ rest
    exact nofun
  skips areSpaces := readMembers_append areSpaces
  goesOn := by
    rintro _ value ⟨string, rfl, plain, reads⟩ fuel enough rest
    exact readMembers_member plain reads (ends_cons (.inl rfl) _)
      (le_trans (by simp [memberText]; omega) enough)
  ends := by
    rintro _ value ⟨string, rfl, plain, reads⟩ fuel enough closing areClosing rest
    rw [readMembers_member plain reads (ends_space areClosing (ends_cons (.inr (.inr rfl)) rest))
      (le_trans (by simp [memberText]; omega) enough), skipSpace_append areClosing]
    rfl

end Reading

/-! ## Values -/

/-- The value is part of the other one. -/
inductive Within : Json → Json → Prop
  | here (value : Json) : Within value value
  | element {value element : Json} {elements : List Json} (isMem : element ∈ elements)
      (inside : Within value element) : Within value (.array elements)
  | member {value : Json} {member : List Byte × Json} {members : List (List Byte × Json)}
      (isMem : member ∈ members) (inside : Within value member.2) :
      Within value (.object members)

/-- The keys of the value are plain, and say which member is meant. -/
structure ClearKeys (members : List (List Byte × Json)) : Prop where
  plain : ∀ member ∈ members, Plain member.1
  unique : ∀ member ∈ members, ∀ member' ∈ members, member.1 = member'.1 → member = member'

/-- The value at a key, which is null if there is none. -/
def valueAt (members : List (List Byte × Json)) (key : List Byte) : Json :=
  ((members.find? fun member => member.1 == key).map Prod.snd).getD .null

mutual

/-- The value with its members in the order in which they are printed. -/
def arrange : Json → Json
  | .array elements => .array (arrangeElements elements)
  | .object members =>
    .object ((sortedKeys members).map fun key => (key, valueAt (arrangeMembers members) key))
  | .null => .null
  | .bool b => .bool b
  | .number n => .number n
  | .string s => .string s

def arrangeElements : List Json → List Json
  | [] => []
  | element :: elements => arrange element :: arrangeElements elements

def arrangeMembers : List (List Byte × Json) → List (List Byte × Json)
  | [] => []
  | (key, value) :: members => (key, arrange value) :: arrangeMembers members

end

section Values

variable {readNumber : List Byte → Option (Number × List Byte)} {printDouble : ℚ → List Byte}

variable (readNumber printDouble) in
/-- The number is printed as one, and read again wherever it ends. -/
structure PrintsNumber (n : Number) : Prop where
  begins : ∃ c rest, n.dump printDouble = c :: rest ∧ (c = 0x2D ∨ 0x30 ≤ c ∧ c ≤ 0x39)
  reads : ∀ rest, Ends rest → readNumber (n.dump printDouble ++ rest) = some (n, rest)

theorem PrintsNumber.readsAs {n : Number} (prints : PrintsNumber readNumber printDouble n) :
    ReadsAs readNumber (n.dump printDouble) (.number n) := by
  obtain ⟨c, rest, isText, isFirst⟩ := prints.begins
  have all : ∀ k < 256, (UInt8.ofNat k = 0x2D ∨ 0x30 ≤ UInt8.ofNat k ∧ UInt8.ofNat k ≤ 0x39) →
      (¬isSpace (UInt8.ofNat k) ∧ UInt8.ofNat k ≠ 0x22 ∧ UInt8.ofNat k ≠ 0x5B ∧
        UInt8.ofNat k ≠ 0x7B ∧ UInt8.ofNat k ≠ 0x5D) ∧ UInt8.ofNat k ≠ 0x6E ∧ UInt8.ofNat k ≠ 0x74 ∧
          UInt8.ofNat k ≠ 0x66 := by decide +kernel
  have isOther := all c.toNat c.toNat_lt
  rw [UInt8.ofNat_toNat] at isOther
  obtain ⟨other, noNull, noTrue, noFalse⟩ := isOther isFirst
  rw [isText]
  refine .scalar other fun behind ends => ?_
  have reads := prints.reads behind ends
  rw [isText] at reads
  have noName {name : List Byte} {d : Byte} (different : c ≠ d) :
      ¬((d :: name).isPrefixOf (c :: rest ++ behind) = true) := by
    rw [cons_append, isPrefixOf_cons_cons, Bool.and_eq_true, beq_iff_eq]
    exact fun isPrefix => different isPrefix.1.symm
  have isNull : text "null" = [0x6E, 0x75, 0x6C, 0x6C] := rfl
  have isTrue : text "true" = [0x74, 0x72, 0x75, 0x65] := rfl
  have isFalse : text "false" = [0x66, 0x61, 0x6C, 0x73, 0x65] := rfl
  rw [readScalar, isNull, isTrue, isFalse, if_neg (noName noNull), if_neg (noName noTrue),
    if_neg (noName noFalse), reads]
  rfl

variable {indent : Int}

theorem separator_eq (level : Nat) : ∃ spaces, (∀ c ∈ spaces, isSpace c) ∧ (if 0 ≤ indent then
        text "," ++ (if 0 ≤ indent then text "\n" else []) ++
          List.replicate ((level + 1) * indent).toNat 0x20
      else text ", ") = 0x2C :: spaces := by
  split
  · refine ⟨0x0A :: List.replicate ((level + 1) * indent).toNat 0x20, ?_, rfl⟩
    refine forall_mem_cons.mpr ⟨by decide +kernel, fun c isMem => ?_⟩
    rw [eq_of_mem_replicate isMem]
    rfl
  · exact ⟨[0x20], by decide +kernel, rfl⟩

theorem isSpace_indentation (indent : Int) (size : Nat) :
    ∀ c ∈ (if 0 ≤ indent then text "\n" else []) ++ List.replicate size 0x20, isSpace c := by
  intro c isMem
  rcases mem_append.mp isMem with isLineEnd | isSpaces
  · split at isLineEnd
    · obtain rfl := mem_singleton.mp isLineEnd
      rfl
    · cases isLineEnd
  · rw [eq_of_mem_replicate isSpaces]
    rfl

theorem to_json_string_array (level : Nat) {elements : List Json} (some : elements ≠ []) :
    ∃ spaces opening closing, (∀ c ∈ spaces, isSpace c) ∧ (∀ c ∈ opening, isSpace c) ∧
      (∀ c ∈ closing, isSpace c) ∧
      to_json_string printDouble indent level (.array elements) =
        0x5B :: (opening ++ (List.intercalate (0x2C :: spaces)
          (elementStrings printDouble indent (level + 1) elements) ++ (closing ++ [0x5D]))) := by
  obtain ⟨spaces, areSpaces, isSeparator⟩ := @separator_eq indent level
  refine ⟨spaces, _, _, areSpaces, isSpace_indentation indent ((level + 1) * indent).toNat,
    isSpace_indentation indent (level * indent).toNat, ?_⟩
  rw [to_json_string]
  rw [if_neg some, isSeparator]
  simp only [append_assoc]
  rfl

theorem to_json_string_object (level : Nat) {members : List (List Byte × Json)}
    (some : members ≠ []) :
    ∃ spaces opening closing, (∀ c ∈ spaces, isSpace c) ∧ (∀ c ∈ opening, isSpace c) ∧
      (∀ c ∈ closing, isSpace c) ∧
      to_json_string printDouble indent level (.object members) =
        0x7B :: (opening ++ (List.intercalate (0x2C :: spaces)
          (((sortedKeys members).map fun key => (key, printedAt
            (memberStrings printDouble indent (level + 1) members) (text "null") key)).map
              memberText) ++ (closing ++ [0x7D]))) := by
  obtain ⟨spaces, areSpaces, isSeparator⟩ := @separator_eq indent level
  refine ⟨spaces, _, _, areSpaces, isSpace_indentation indent ((level + 1) * indent).toNat,
    isSpace_indentation indent (level * indent).toNat, ?_⟩
  have isMember (key : List Byte) : text "\"" ++ key ++ text "\": " ++
      printedAt (memberStrings printDouble indent (level + 1) members) (text "null") key =
        memberText (key, printedAt (memberStrings printDouble indent (level + 1) members)
          (text "null") key) := rfl
  rw [to_json_string]
  simp only [isMember]
  rw [if_neg some, isSeparator, map_map]
  simp only [append_assoc]
  rfl

/-- The parts of a value are parts of what it is part of. -/
def Printable (readNumber : List Byte → Option (Number × List Byte))
    (printDouble : ℚ → List Byte) (value : Json) : Prop :=
  (∀ n, Within (.number n) value → PrintsNumber readNumber printDouble n) ∧
    ∀ members, Within (.object members) value → ClearKeys members

theorem Printable.element {elements : List Json}
    (printable : Printable readNumber printDouble (.array elements)) :
    ∀ element ∈ elements, Printable readNumber printDouble element := fun _ isMem =>
  ⟨fun n inside => printable.1 n (.element isMem inside),
    fun members inside => printable.2 members (.element isMem inside)⟩

theorem Printable.member {members : List (List Byte × Json)}
    (printable : Printable readNumber printDouble (.object members)) :
    ∀ member ∈ members, Printable readNumber printDouble member.2 := fun _ isMem =>
  ⟨fun n inside => printable.1 n (.member isMem inside),
    fun members inside => printable.2 members (.member isMem inside)⟩

theorem readsAs_null : ReadsAs readNumber (text "null") .null := .scalar (by decide) fun _ _ => rfl

theorem readsAs_nil_array : ReadsAs readNumber (text "[]") (.array []) where
  begins _ := rfl
  nonempty := cons_ne_nil _ _
  opens := nofun
  reads rest _ fuel enough := by
    cases fuel with
    | zero => exact absurd enough (by decide)
    | succ fuel => rfl

theorem readsAs_nil_object : ReadsAs readNumber (text "\x7b\x7d") (.object []) where
  begins _ := rfl
  nonempty := cons_ne_nil _ _
  opens := nofun
  reads rest _ fuel enough := by
    cases fuel with
    | zero => exact absurd enough (by decide)
    | succ fuel => rfl

theorem readsAs_at (reads : List.Forall₂ (fun member value =>
      member.1 = value.1 ∧ ReadsAs readNumber member.2 value.2) members values) (key : List Byte) :
    ReadsAs readNumber (printedAt members (text "null") key) (valueAt values key) := by
  induction reads with
  | nil => exact readsAs_null
  | @cons member value members values here later ih =>
    unfold printedAt valueAt at ih ⊢
    rw [find?_cons, find?_cons, ← here.1]
    cases member.1 == key with
    | true => exact here.2
    | false => exact ih

theorem perm_sortedKeys {α : Type} {members : List (List Byte × α)}
    (plain : ∀ member ∈ members, Plain member.1) :
    (sortedKeys members).Perm (members.map Prod.fst) := by
  have same : members.map (fun member => c_str member.1) = members.map Prod.fst := by
    refine map_congr_left fun member isMem => ?_
    refine takeWhile_eq_self_iff.mpr fun c isChar => ?_
    have isPlain := plain member isMem c isChar
    rw [bne_iff_ne]
    rintro rfl
    exact isPlain (by decide)
  rw [sortedKeys, same]
  exact perm_insertionSort _ _

mutual

theorem readsAs_to_json_string : (value : Json) → (level : Nat) →
    Printable readNumber printDouble value →
      ReadsAs readNumber (to_json_string printDouble indent level value) (arrange value)
  | .null, _, _ => readsAs_null
  | .bool true, _, _ => .scalar (by decide) fun _ _ => rfl
  | .bool false, _, _ => .scalar (by decide) fun _ _ => rfl
  | .number n, _, printable => (printable.1 n (.here _)).readsAs
  | .string s, _, _ => readsAs_string s
  | .array [], _, _ => readsAs_nil_array
  | .array (element :: elements), level, printable => by
      obtain ⟨spaces, opening, closing, areSpaces, areOpening, areClosing, isText⟩ :=
        @to_json_string_array printDouble indent level (element :: elements) (cons_ne_nil _ _)
      rw [isText]
      exact readsItems_array.readsAs areSpaces areOpening areClosing
        (readsAs_elementStrings (element :: elements) (level + 1) printable.element)
        (cons_ne_nil _ _)
  | .object [], _, _ => readsAs_nil_object
  | .object (member :: members), level, printable => by
      obtain ⟨spaces, opening, closing, areSpaces, areOpening, areClosing, isText⟩ :=
        @to_json_string_object printDouble indent level (member :: members) (cons_ne_nil _ _)
      have clear := printable.2 _ (.here _)
      have sorted := perm_sortedKeys clear.plain
      have reads := readsAs_memberStrings (member :: members) (level + 1) printable.member
      rw [isText, arrange]
      refine readsItems_object.readsAs areSpaces areOpening areClosing ?_ ?_
      · rw [map_map, forall₂_map_left_iff, forall₂_map_right_iff, forall₂_same]
        intro key isKey
        obtain ⟨other, isOther, isName⟩ := mem_map.mp (sorted.mem_iff.mp isKey)
        refine ⟨_, rfl, ?_, readsAs_at reads key⟩
        rw [← isName]
        exact clear.plain other isOther
      · intro none
        have size := sorted.length_eq
        rw [map_eq_nil_iff.mp (map_eq_nil_iff.mp none)] at size
        cases size

theorem readsAs_elementStrings : (elements : List Json) → (level : Nat) →
    (∀ element ∈ elements, Printable readNumber printDouble element) →
      List.Forall₂ (ReadsAs readNumber) (elementStrings printDouble indent level elements)
        (arrangeElements elements)
  | [], _, _ => .nil
  | element :: elements, level, printable =>
    .cons (readsAs_to_json_string element level (printable _ mem_cons_self))
      (readsAs_elementStrings elements level fun other isMem =>
        printable other (mem_cons_of_mem _ isMem))

theorem readsAs_memberStrings : (members : List (List Byte × Json)) → (level : Nat) →
    (∀ member ∈ members, Printable readNumber printDouble member.2) →
      List.Forall₂ (fun member value => member.1 = value.1 ∧ ReadsAs readNumber member.2 value.2)
        (memberStrings printDouble indent level members) (arrangeMembers members)
  | [], _, _ => .nil
  | (_, value) :: members, level, printable =>
    .cons ⟨rfl, readsAs_to_json_string value level (printable _ mem_cons_self)⟩
      (readsAs_memberStrings members level fun other isMem =>
        printable other (mem_cons_of_mem _ isMem))

end

end Values

/-! ## Sameness -/

theorem arrangeMembers_eq_map (members : List (List Byte × Json)) :
    arrangeMembers members = members.map fun member => (member.1, arrange member.2) := by
  induction members with
  | nil => rfl
  | cons member members ih =>
    rw [arrangeMembers, ih]
    rfl

theorem valueAt_arrangeMembers {members : List (List Byte × Json)} (clear : ClearKeys members)
    {member : List Byte × Json} (isMem : member ∈ members) :
    valueAt (arrangeMembers members) member.1 = arrange member.2 := by
  have isMember : (member.1, arrange member.2) ∈ arrangeMembers members := by
    rw [arrangeMembers_eq_map]
    exact mem_map_of_mem isMem
  cases isFound : (arrangeMembers members).find? fun other => other.1 == member.1 with
  | none =>
    have different := List.find?_eq_none.mp isFound _ isMember
    exact absurd (beq_self_eq_true member.1) different
  | some found =>
    have sameName := find?_some isFound
    have isMem' := mem_of_find?_eq_some isFound
    rw [arrangeMembers_eq_map] at isMem'
    obtain ⟨other, isOther, rfl⟩ := mem_map.mp isMem'
    obtain rfl := clear.unique other isOther member isMem (beq_iff_eq.mp sameName)
    rw [valueAt, isFound]
    rfl

mutual

theorem arrange_same : (value : Json) →
    (∀ members, Within (.object members) value → ClearKeys members) → (arrange value).Same value
  | .null, _ => .null
  | .bool b, _ => .bool b
  | .number _, _ => .number rfl
  | .string s, _ => .string s
  | .array elements, clear =>
    .array (arrangeElements_same elements fun _ isMem members inside =>
      clear members (.element isMem inside))
  | .object members, clear => by
      have isClear := clear members (.here _)
      have same := arrangeMembers_same members fun _ isMem members inside =>
        clear members (.member isMem inside)
      have arranged : (members.map Prod.fst).map
          (fun key => (key, valueAt (arrangeMembers members) key)) = arrangeMembers members := by
        rw [map_map, arrangeMembers_eq_map members]
        refine map_congr_left fun member isMem => ?_
        have isValue := valueAt_arrangeMembers isClear isMem
        rw [arrangeMembers_eq_map members] at isValue
        rw [Function.comp_apply, isValue]
      have names : (arrangeMembers members).map Prod.fst = members.map Prod.fst := by
        rw [arrangeMembers_eq_map, map_map]
        rfl
      refine .object ?_ names same
      have sorted := (perm_sortedKeys isClear.plain).map fun key =>
        (key, valueAt (arrangeMembers members) key)
      rwa [arranged] at sorted

theorem arrangeElements_same : (elements : List Json) →
    (∀ element ∈ elements, ∀ members, Within (.object members) element → ClearKeys members) →
      List.Forall₂ Json.Same (arrangeElements elements) elements
  | [], _ => .nil
  | element :: elements, clear =>
    .cons (arrange_same element (clear _ mem_cons_self))
      (arrangeElements_same elements fun other isMem =>
        clear other (mem_cons_of_mem _ isMem))

theorem arrangeMembers_same : (members : List (List Byte × Json)) →
    (∀ member ∈ members, ∀ members, Within (.object members) member.2 → ClearKeys members) →
      List.Forall₂ Json.Same ((arrangeMembers members).map Prod.snd) (members.map Prod.snd)
  | [], _ => .nil
  | (_, value) :: members, clear =>
    .cons (arrange_same value (clear _ mem_cons_self))
      (arrangeMembers_same members fun other isMem =>
        clear other (mem_cons_of_mem _ isMem))

end

/-! ## The text of a value -/

/-- The number 1. -/
def one : Number := .integer 1 (by decide)

/-- A reader that knows one number. -/
def readOne : List Byte → Option (Number × List Byte)
  | 0x31 :: rest => some (one, rest)
  | _ => none

theorem printsNumber_one (printDouble : ℚ → List Byte) : PrintsNumber readOne printDouble one where
  begins := ⟨0x31, [], rfl, by decide⟩
  reads _ _ := rfl

/-- `{"name": [1], "type": true}`, whose members are printed in the other order. -/
def smallObject : Json := .object [(text "name", .array [.number one]), (text "type", .bool true)]

end Mnn.Llm.Jinja
