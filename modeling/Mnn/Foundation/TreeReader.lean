import Mnn.Foundation.ByteReader

/-!
# Readers of trees

A component is a leaf or a sequence of components, which a byte in front tells.
A leaf that is not there is left out of a sequence.  Each component takes a byte,
so that a reader of components comes to an end.
-/

namespace Mnn.Foundation.ByteReader

open BitFields
open List

variable {α Leaf : Type}

inductive Composite (Leaf : Type)
  | leaf (leaf : Leaf)
  | sequence (children : List (Composite Leaf))

section Composite

variable (sequenceType : Byte) (readLeaf : Byte → Reader (Option Leaf))

def readTreeFuel : Nat → Reader (Option (Composite Leaf))
  | 0 => fun _ => .error .outOfFuel
  | fuel + 1 => do
      let type ← byte
      if type = sequenceType then do
        let count ← number 4
        let children ← many (readTreeFuel fuel) count
        pure (some (.sequence children.reduceOption))
      else do
        let leaf ← readLeaf type
        pure (leaf.map .leaf)

/-- There is fuel for each byte. -/
def readTree : Reader (Option (Composite Leaf)) := fun input =>
  readTreeFuel sequenceType readLeaf (input.length + 1) input

/-- Some components, one behind the other. -/
inductive Trees (leafBytes : Byte → Grammar (Option Leaf)) :
    Grammar (List (Option (Composite Leaf)))
  | nil : Trees leafBytes [] []
  | leaf {type : Byte} {body bytes : List Byte} {leaf : Option Leaf}
      {trees : List (Option (Composite Leaf))} :
      type ≠ sequenceType → leafBytes type body leaf → Trees leafBytes bytes trees →
          Trees leafBytes (type :: body ++ bytes) (leaf.map .leaf :: trees)
  | sequence {inner bytes : List Byte} {children trees : List (Option (Composite Leaf))} :
      children.length < 256 ^ 4 → Trees leafBytes inner children → Trees leafBytes bytes trees →
          Trees leafBytes (sequenceType :: (toBytes 4 children.length ++ inner) ++ bytes)
            (some (.sequence children.reduceOption) :: trees)

/-- One component. -/
def TreeBytes (leafBytes : Byte → Grammar (Option Leaf)) :
    Grammar (Option (Composite Leaf)) := fun bytes tree =>
  Trees sequenceType leafBytes bytes [tree]

variable {sequenceType} {leafBytes : Byte → Grammar (Option Leaf)}
  {trees : List (Option (Composite Leaf))} {bytes input : List Byte}

theorem TreeBytes.cons {others : List Byte} {tree : Option (Composite Leaf)}
    (first : TreeBytes sequenceType leafBytes bytes tree)
    (derived : Trees sequenceType leafBytes others trees) :
    Trees sequenceType leafBytes (bytes ++ others) (tree :: trees) := by
  cases first with
  | leaf notSequence isLeaf none =>
    cases none
    rw [append_nil]
    exact .leaf notSequence isLeaf derived
  | sequence few inner none =>
    cases none
    rw [append_nil]
    exact .sequence few inner derived

theorem Trees.of_many (derived : Many (TreeBytes sequenceType leafBytes) bytes trees) :
    Trees sequenceType leafBytes bytes trees := by
  induction derived with
  | nil => exact .nil
  | cons first _ others => exact first.cons others

/-! ## Reading -/

variable {readLeaf}

theorem readTreeFuel_succ (fuel : Nat) {result : Option (Composite Leaf) × List Byte} :
    readTreeFuel sequenceType readLeaf (fuel + 1) input = .ok result ↔
      ∃ type rest, input = type :: rest ∧ ((type = sequenceType ∧ ∃ count children rest',
            rest = toBytes 4 count ++ rest' ∧ count < 256 ^ 4 ∧
              many (readTreeFuel sequenceType readLeaf fuel) count rest' =
                .ok (children, result.2) ∧
              result.1 = some (.sequence children.reduceOption)) ∨
          (type ≠ sequenceType ∧ ∃ leaf, readLeaf type rest = .ok (leaf, result.2) ∧
              result.1 = leaf.map .leaf)) := by
  obtain ⟨tree, behind⟩ := result
  show (byte >>= fun type => _) input = _ ↔ _
  rw [bind_eq_ok]
  simp only [byte_eq_ok]
  refine exists_congr fun type => exists_congr fun rest =>
    and_congr_right fun _ => ?_
  by_cases isSequence : type = sequenceType
  · rw [if_pos isSequence]
    simp only [bind_eq_ok, number_eq_ok, pure_eq_ok, isSequence, ne_eq,
      not_true_eq_false, false_and, or_false, true_and]
    constructor
    · rintro ⟨count, rest', ⟨rfl, few⟩, children, _, read, rfl, rfl⟩
      exact ⟨count, children, rest', rfl, few, read, rfl⟩
    · rintro ⟨count, children, rest', rfl, few, read, rfl⟩
      exact ⟨count, rest', ⟨rfl, few⟩, children, _, read, rfl, rfl⟩
  · rw [if_neg isSequence]
    simp only [bind_eq_ok, pure_eq_ok, isSequence, false_and, ne_eq,
      not_false_eq_true, true_and, false_or]
    constructor
    · rintro ⟨leaf, _, read, rfl, rfl⟩
      exact ⟨leaf, read, rfl⟩
    · rintro ⟨leaf, read, rfl⟩
      exact ⟨leaf, _, read, rfl, rfl⟩

theorem readTreeFuel_sound (sound : ∀ type, Sound (readLeaf type) (leafBytes type)) (fuel : Nat) :
    Sound (readTreeFuel sequenceType readLeaf fuel) (TreeBytes sequenceType leafBytes) := by
  induction fuel with
  | zero => exact fun _ _ _ impossible => nomatch impossible
  | succ fuel ih =>
    intro input tree rest read
    obtain ⟨type, behind, rfl, cases⟩ := (readTreeFuel_succ fuel).mp read
    rcases cases with
      ⟨rfl, count, children, behind', rfl, few, read, rfl⟩ | ⟨notSequence, leaf, read, rfl⟩
    · obtain ⟨inner, rfl, rfl, derived⟩ := ih.many count _ _ _ read
      refine ⟨type :: (toBytes 4 children.length ++ inner) ++ [], ?_,
        .sequence few (.of_many derived) .nil⟩
      simp only [append_nil, cons_append, append_assoc]
    · obtain ⟨body, rfl, isLeaf⟩ := sound type _ _ _ read
      refine ⟨type :: body ++ [], ?_, .leaf notSequence isLeaf .nil⟩
      rw [append_nil, cons_append]

theorem Trees.read (reads : ∀ type, Reads (readLeaf type) (leafBytes type))
    (derived : Trees sequenceType leafBytes bytes trees) (rest : List Byte)
    {fuel : Nat} (enough : bytes.length ≤ fuel) :
    many (readTreeFuel sequenceType readLeaf fuel) trees.length (bytes ++ rest) =
      .ok (trees, rest) := by
  induction derived generalizing rest fuel with
  | nil => exact pure_eq_ok.mpr ⟨rfl, rfl⟩
  | @leaf type body bytes leaf trees notSequence isLeaf _ others =>
    rw [cons_append, length_cons, length_append] at enough
    refine bind_eq_ok.mpr ⟨leaf.map .leaf, bytes ++ rest, ?_,
      bind_eq_ok.mpr ⟨trees, rest, others rest (by omega), pure_eq_ok.mpr ⟨rfl, rfl⟩⟩⟩
    cases fuel with
    | zero => exact absurd enough (Nat.not_succ_le_zero _)
    | succ fuel =>
      refine (readTreeFuel_succ fuel).mpr ⟨type, body ++ (bytes ++ rest), ?_,
        Or.inr ⟨notSequence, leaf, (reads type).apply isLeaf _, rfl⟩⟩
      rw [cons_append, cons_append, append_assoc]
  | @sequence inner bytes children trees few _ _ inside others =>
    rw [cons_append, length_cons, length_append, length_append] at enough
    refine bind_eq_ok.mpr ⟨some (.sequence children.reduceOption), bytes ++ rest, ?_,
      bind_eq_ok.mpr ⟨trees, rest, others rest (by omega), pure_eq_ok.mpr ⟨rfl, rfl⟩⟩⟩
    cases fuel with
    | zero => exact absurd enough (Nat.not_succ_le_zero _)
    | succ fuel =>
      refine (readTreeFuel_succ fuel).mpr ⟨sequenceType,
        toBytes 4 children.length ++ (inner ++ (bytes ++ rest)), ?_,
        Or.inl ⟨rfl, children.length, children, inner ++ (bytes ++ rest),
          rfl, few, inside _ (by omega), rfl⟩⟩
      simp only [cons_append, append_assoc]

theorem reads_readTree (reads : ∀ type, Reads (readLeaf type) (leafBytes type)) :
    Reads (readTree sequenceType readLeaf) (TreeBytes sequenceType leafBytes) := by
  intro input tree rest
  constructor
  · exact fun read =>
      readTreeFuel_sound (fun type => (reads type).sound) _ _ _ _ read
  · rintro ⟨bytes, rfl, derived⟩
    have enough : bytes.length ≤ (bytes ++ rest).length + 1 := by
      rw [length_append]
      omega
    obtain ⟨_, _, read, others⟩ := bind_eq_ok.mp (Trees.read reads derived rest enough)
    obtain ⟨_, _, isNone, others⟩ := bind_eq_ok.mp others
    obtain ⟨same, rfl⟩ := pure_eq_ok.mp others
    obtain ⟨rfl, rfl⟩ := pure_eq_ok.mp isNone
    obtain rfl := (List.cons.inj same).1
    exact read

theorem many_plain {reader : Reader α} {grammar : Grammar α} {size : Nat}
    (sound : Sound reader grammar)
    (plain : ∀ input failure, input.length < size →
      reader input = .error failure → failure = .overrun) (count : Nat) {failure : Failure}
    (less : input.length < size) (fails : many reader count input = .error failure) :
    failure = .overrun := by
  induction count generalizing input with
  | zero => exact (pure_ne_error.mp fails).elim
  | succ count ih =>
    rcases bind_eq_error.mp fails with fails | ⟨value, rest, read, others⟩
    · exact plain input failure less fails
    · obtain ⟨bytes, rfl, -⟩ := sound _ _ _ read
      rw [length_append] at less
      rcases bind_eq_error.mp others with others | ⟨_, _, -, others⟩
      · exact ih (by omega) others
      · exact (pure_ne_error.mp others).elim

theorem plain_readTree (reads : ∀ type, Reads (readLeaf type) (leafBytes type))
    (plain : ∀ type, Plain (readLeaf type)) :
    Plain (readTree sequenceType readLeaf) := by
  have inSize (fuel : Nat) (input : List Byte) (failure : Failure) (less : input.length < fuel)
      (fails : readTreeFuel sequenceType readLeaf fuel input = .error failure) :
      failure = .overrun := by
    induction fuel generalizing input failure with
    | zero => cases less
    | succ fuel ih =>
      rcases bind_eq_error.mp fails with fails | ⟨type, rest, isByte, body⟩
      · exact Plain.byte input failure fails
      · obtain rfl := byte_eq_ok.mp isByte
        split at body
        · rcases bind_eq_error.mp body with body | ⟨count, behind, read, inner⟩
          · exact Plain.number 4 rest failure body
          · obtain ⟨rfl, few⟩ := number_eq_ok.mp read
            rw [length_cons, length_append] at less
            rcases bind_eq_error.mp inner with inner | ⟨_, _, -, inner⟩
            · exact many_plain (readTreeFuel_sound (fun type => (reads type).sound) fuel)
                ih count (by omega) inner
            · exact (pure_ne_error.mp inner).elim
        · rcases bind_eq_error.mp body with body | ⟨_, _, -, body⟩
          · exact plain type rest failure body
          · exact (pure_ne_error.mp body).elim
  intro input failure fails
  exact inSize _ input failure (Nat.lt_succ_self _) fails

end Composite

end Mnn.Foundation.ByteReader
