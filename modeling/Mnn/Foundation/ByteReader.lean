import Mnn.Foundation.BitFields

/-!
# Readers of bytes

A reader takes bytes from the front.  It can go over the end, reject what it has
read, or run out of fuel.  What it reads is compared with a grammar, which says
which bytes stand for which value.
-/

variable {input rest bytes : List Byte} {failure : Failure} {count : Nat}

namespace Mnn.Foundation.ByteReader

open BitFields
open List

variable {α β Leaf : Type}

inductive Failure
  /-- A byte behind the end was read. -/
  | overrun
  | reject
  | outOfFuel
  deriving DecidableEq, Repr

/-- What is read, and the bytes behind it. -/
def Reader (α : Type) := List Byte → Except Failure (α × List Byte)

instance : Monad Reader where
  pure value := fun input => .ok (value, input)
  bind reader next := fun input =>
    match reader input with
    | .ok (value, rest) => next value rest
    | .error failure => .error failure

/-- The next byte. -/
def byte : Reader Byte
  | [] => .error .overrun
  | byte :: rest => .ok (byte, rest)

/-- So many bytes. -/
def block (count : Nat) : Reader (List Byte) := fun input =>
  if count ≤ input.length then
    .ok (input.take count, input.drop count)
  else
    .error .overrun

/-- A number of so many bytes. -/
def number (count : Nat) : Reader Nat := do
  let bytes ← block count
  pure (ofBytes bytes)

def reject : Reader α := fun _ => .error .reject

def many (reader : Reader α) : Nat → Reader (List α)
  | 0 => pure []
  | count + 1 => do
      let value ← reader
      let values ← many reader count
      pure (value :: values)

/-! ## What readers come to -/

@[simp]
theorem pure_eq_ok {value value' : α} :
    (pure value : Reader α) input = .ok (value', rest) ↔ value' = value ∧ rest = input := by
  show (Except.ok (value, input) : Except Failure _) = _ ↔ _
  rw [Except.ok.injEq, Prod.mk.injEq, eq_comm, @eq_comm _ input]

@[simp]
theorem pure_ne_error {value : α} :
    (pure value : Reader α) input = .error failure ↔ False :=
  iff_of_false nofun id

variable {input : List Byte}

section

variable {reader : Reader α} {next : α → Reader β}

@[simp]
theorem bind_eq_ok {result : β × List Byte} :
    (reader >>= next) input = .ok result ↔ ∃ value rest, reader input = .ok (value, rest) ∧
        next value rest = .ok result := by
  show (match reader input with
    | .ok (value, rest) => next value rest
    | .error failure => .error failure) = _ ↔ _
  cases reader input with
  | error failure =>
    refine iff_of_false nofun ?_
    rintro ⟨_, _, impossible, -⟩
    nomatch impossible
  | ok read =>
    constructor
    · intro goesOn
      exact ⟨read.1, read.2, rfl, goesOn⟩
    · rintro ⟨value, rest, same, goesOn⟩
      obtain rfl := Except.ok.inj same
      exact goesOn

@[simp]
theorem bind_eq_error :
    (reader >>= next) input = .error failure ↔ reader input = .error failure ∨
        ∃ value rest, reader input = .ok (value, rest) ∧
          next value rest = .error failure := by
  show (match reader input with
    | .ok (value, rest) => next value rest
    | .error failure => .error failure) = _ ↔ _
  cases reader input with
  | error other =>
    constructor
    · intro fails
      exact Or.inl (congrArg Except.error (Except.error.inj fails))
    · rintro (fails | ⟨_, _, impossible, -⟩)
      · exact congrArg Except.error (Except.error.inj fails)
      · nomatch impossible
  | ok read =>
    constructor
    · intro fails
      exact Or.inr ⟨read.1, read.2, rfl, fails⟩
    · rintro (impossible | ⟨value, rest, same, fails⟩)
      · nomatch impossible
      · obtain rfl := Except.ok.inj same
        exact fails

theorem bind_of_ok {value : α} (read : reader input = .ok (value, rest)) :
    (reader >>= next) input = next value rest := by
  show (match reader input with
    | .ok (value, rest) => next value rest
    | .error failure => .error failure) = _
  rw [read]

end

variable {reader : Reader α} {next : α → Reader β}

theorem bind_congr_input {reader' : Reader α} (same : reader input = reader' input) :
    (reader >>= next) input = (reader' >>= next) input := by
  show (match reader input with
    | .ok (value, rest) => next value rest
    | .error failure => .error failure) = _
  rw [same]
  rfl

@[simp]
theorem byte_eq_ok {value : Byte} :
    byte input = .ok (value, rest) ↔ input = value :: rest := by
  cases input with
  | nil => exact iff_of_false nofun nofun
  | cons first others =>
    show (Except.ok (first, others) : Except Failure _) = _ ↔ _
    rw [Except.ok.injEq, Prod.mk.injEq, List.cons.injEq]

@[simp]
theorem byte_eq_error :
    byte input = .error failure ↔ input = [] ∧ failure = .overrun := by
  cases input with
  | nil =>
    show (Except.error Failure.overrun : Except Failure (Byte × List Byte)) = _ ↔ _
    rw [Except.error.injEq, eq_comm, and_iff_right rfl]
  | cons first others =>
    exact iff_of_false nofun fun impossible => nomatch impossible.1

@[simp]
theorem block_eq_ok {value : List Byte} :
    block count input = .ok (value, rest) ↔ input = value ++ rest ∧ value.length = count := by
  unfold block
  split
  · rename_i le
    rw [Except.ok.injEq, Prod.mk.injEq]
    constructor
    · rintro ⟨rfl, rfl⟩
      exact ⟨(take_append_drop count input).symm, length_take_of_le le⟩
    · rintro ⟨rfl, rfl⟩
      exact ⟨take_left' rfl, drop_left' rfl⟩
  · rename_i tooShort
    refine iff_of_false nofun ?_
    rintro ⟨rfl, rfl⟩
    exact tooShort (by rw [length_append]; omega)

@[simp]
theorem block_eq_error :
    block count input = .error failure ↔ input.length < count ∧ failure = .overrun := by
  unfold block
  split
  · rename_i le
    refine iff_of_false nofun ?_
    exact fun impossible => absurd le (Nat.not_le_of_lt impossible.1)
  · rename_i tooShort
    rw [Except.error.injEq, eq_comm, and_iff_right (Nat.lt_of_not_le tooShort)]

@[simp]
theorem number_eq_ok {value : Nat} :
    number count input = .ok (value, rest) ↔
      input = toBytes count value ++ rest ∧ value < 256 ^ count := by
  unfold number
  rw [bind_eq_ok]
  simp only [block_eq_ok, pure_eq_ok]
  constructor
  · rintro ⟨bytes, _, ⟨rfl, rfl⟩, rfl, rfl⟩
    exact ⟨by rw [toBytes_ofBytes], ofBytes_lt bytes⟩
  · rintro ⟨rfl, fits⟩
    exact ⟨toBytes count value, rest, ⟨rfl, length_toBytes ..⟩, (ofBytes_toBytes fits).symm, rfl⟩

/-- The only failure of a reader is that it goes over the end. -/
def Plain (reader : Reader α) : Prop :=
  ∀ input failure, reader input = .error failure → failure = .overrun

namespace Plain

theorem ne_reject (plain : Plain reader) (input : List Byte) :
    reader input = .error .reject ↔ False :=
  iff_of_false (fun rejects => nomatch plain input _ rejects) id

theorem pure (value : α) : Plain (Pure.pure value : Reader α) := by
  intro input failure fails
  rw [pure_ne_error] at fails
  exact fails.elim

theorem bind (plain : Plain reader) (goesOn : ∀ value, Plain (next value)) :
    Plain (reader >>= next) := by
  intro input failure fails
  rw [bind_eq_error] at fails
  rcases fails with fails | ⟨value, rest, -, fails⟩
  · exact plain input failure fails
  · exact goesOn value rest failure fails

theorem byte : Plain byte := fun _ _ fails => (byte_eq_error.mp fails).2

theorem block (count : Nat) : Plain (block count) := fun _ _ fails => (block_eq_error.mp fails).2

theorem number (count : Nat) : Plain (number count) := (block count).bind fun _ => pure _

theorem many (plain : Plain reader) (count : Nat) :
    Plain (many reader count) := by
  induction count with
  | zero => exact pure []
  | succ count ih =>
    exact plain.bind fun _ => ih.bind fun _ => pure _

end Plain

/-! ## Grammars -/

/-- Which bytes stand for which value. -/
abbrev Grammar (α : Type) := List Byte → α → Prop

/-- The reader takes exactly the bytes that stand for some value. -/
def Reads (reader : Reader α) (grammar : Grammar α) : Prop :=
  ∀ input value rest, reader input = .ok (value, rest) ↔
      ∃ bytes, input = bytes ++ rest ∧ grammar bytes value

theorem Reads.apply {grammar : Grammar α} (reads : Reads reader grammar) {value : α}
    (derived : grammar bytes value) (rest : List Byte) :
    reader (bytes ++ rest) = .ok (value, rest) :=
  (reads ..).mpr ⟨bytes, rfl, derived⟩

/-- Some values one behind the other. -/
inductive Many (grammar : Grammar α) : Grammar (List α)
  | nil : Many grammar [] []
  | cons {bytes others : List Byte} {value : α} {values : List α} :
      grammar bytes value → Many grammar others values →
        Many grammar (bytes ++ others) (value :: values)

theorem Many.exists {grammar : Grammar α} {values : List α} (derived : Many grammar bytes values) :
    ∀ value ∈ values, ∃ bytes, grammar bytes value := by
  induction derived with
  | nil => exact fun _ impossible => absurd impossible not_mem_nil
  | cons first _ others =>
    intro value member
    rcases mem_cons.mp member with rfl | member
    · exact ⟨_, first⟩
    · exact others value member

/-- What the reader takes stands for the value. -/
def Sound (reader : Reader α) (grammar : Grammar α) : Prop :=
  ∀ input value rest, reader input = .ok (value, rest) →
    ∃ bytes, input = bytes ++ rest ∧ grammar bytes value

section

variable {reader : Reader α} {grammar : Grammar α}

theorem Reads.sound (reads : Reads reader grammar) : Sound reader grammar :=
  fun _ _ _ read => (reads ..).mp read

theorem Sound.reads (sound : Sound reader grammar)
    (takes : ∀ bytes value rest, grammar bytes value →
      reader (bytes ++ rest) = .ok (value, rest)) : Reads reader grammar := by
  intro input value rest
  constructor
  · exact sound input value rest
  · rintro ⟨bytes, rfl, derived⟩
    exact takes bytes value rest derived

theorem Reads.bind_apply (reads : Reads reader grammar)
    {value : α} (derived : grammar bytes value) (rest : List Byte) :
    (reader >>= next) (bytes ++ rest) = next value rest :=
  bind_of_ok (reads.apply derived rest)

theorem Sound.many (sound : Sound reader grammar) (count : Nat) :
    Sound (many reader count) fun bytes values =>
      values.length = count ∧ Many grammar bytes values := by
  induction count with
  | zero =>
    intro input values rest read
    obtain ⟨rfl, rfl⟩ := pure_eq_ok.mp read
    exact ⟨[], rfl, rfl, .nil⟩
  | succ count ih =>
    intro input values rest read
    obtain ⟨value, rest', first, read⟩ := bind_eq_ok.mp read
    obtain ⟨values', rest'', others, read⟩ := bind_eq_ok.mp read
    obtain ⟨rfl, rfl⟩ := pure_eq_ok.mp read
    obtain ⟨bytes, rfl, isFirst⟩ := sound _ _ _ first
    obtain ⟨bytes', rfl, rfl, derived⟩ := ih _ _ _ others
    exact ⟨bytes ++ bytes', (append_assoc ..).symm, rfl, .cons isFirst derived⟩

theorem Reads.many (reads : Reads reader grammar) (count : Nat) :
    Reads (many reader count) fun bytes values =>
      values.length = count ∧ Many grammar bytes values := by
  intro input values rest
  constructor
  · exact reads.sound.many count input values rest
  · rintro ⟨bytes, rfl, rfl, derived⟩
    induction derived with
    | nil => exact pure_eq_ok.mpr ⟨rfl, rfl⟩
    | @cons bytes others value values first _ read =>
      rw [append_assoc]
      exact bind_eq_ok.mpr ⟨value, others ++ rest, reads.apply first _,
        bind_eq_ok.mpr ⟨values, rest, read, pure_eq_ok.mpr ⟨rfl, rfl⟩⟩⟩

end

/-- The reader rejects exactly what begins with some of these bytes. -/
def Rejects (reader : Reader α) (refused : List Byte → Prop) : Prop :=
  ∀ input, reader input = .error .reject ↔ ∃ bytes rest, input = bytes ++ rest ∧ refused bytes

/-- The first value that is rejected, behind others that are not. -/
theorem Reads.many_eq_reject {grammar : Grammar α} (reads : Reads reader grammar) :
    ByteReader.many reader count input = .error .reject ↔
      ∃ bytes values rest, input = bytes ++ rest ∧ values.length < count ∧
        Many grammar bytes values ∧ reader rest = .error .reject := by
  induction count generalizing input with
  | zero =>
    refine iff_of_false nofun ?_
    rintro ⟨_, _, _, -, impossible, -⟩
    exact Nat.not_lt_zero _ impossible
  | succ count ih =>
    show (reader >>= fun value => _) input = _ ↔ _
    simp only [bind_eq_error, pure_ne_error, and_false, exists_false, or_false, ih]
    constructor
    · rintro (rejects | ⟨value, _, first, bytes, values, rest, rfl, few, derived, rejects⟩)
      · exact ⟨[], [], input, rfl, Nat.succ_pos count, .nil, rejects⟩
      · obtain ⟨bytes', rfl, isFirst⟩ := reads.sound _ _ _ first
        exact ⟨bytes' ++ bytes, value :: values, rest,
          (append_assoc ..).symm, Nat.succ_lt_succ few,
          .cons isFirst derived, rejects⟩
    · rintro ⟨_, _, rest, rfl, few, derived, rejects⟩
      cases derived with
      | nil => exact Or.inl rejects
      | cons isFirst derived =>
        right
        rw [append_assoc]
        exact ⟨_, _, reads.apply isFirst _, _, _, rest, rfl,
          Nat.lt_of_succ_lt_succ few, derived, rejects⟩

end Mnn.Foundation.ByteReader
