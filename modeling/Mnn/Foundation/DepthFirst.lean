import Mathlib

/-!
# Depth-first orders with a stack

A node is emitted once all of its inputs are; until then its first input that is missing
lies above it on the stack.  If nothing depends on itself, each node that is needed is
emitted once, behind its inputs.
-/

namespace Mnn.Foundation.DepthFirst

open List

variable {α : Type} [DecidableEq α] (inputs : α → List α)

/-- One turn: the stack, with its top first, and what was emitted. -/
def turn : List α × List α → List α × List α
  | ([], sequence) => ([], sequence)
  | (top :: rest, sequence) =>
    if top ∈ sequence then
      (rest, sequence)
    else
      match (inputs top).find? fun input => decide (input ∉ sequence) with
      | some input => (input :: top :: rest, sequence)
      | none => (rest, sequence ++ [top])

def turns : Nat → List α × List α → List α × List α
  | 0, state => state
  | count + 1, state => turns count (turn inputs state)

/-- Each node is there once, behind its inputs. -/
inductive Emitted : List α → Prop
  | nil : Emitted []
  | snoc {sequence : List α} {node : α} :
      Emitted sequence → node ∉ sequence → inputs node ⊆ sequence → Emitted (sequence ++ [node])

/-- A node needs its inputs, and what they need. -/
def Needs (node other : α) : Prop :=
  Relation.ReflTransGen (fun input node => input ∈ inputs node) other node

variable {inputs}

theorem turns_add (count count' : Nat) (state : List α × List α) :
    turns inputs (count + count') state = turns inputs count' (turns inputs count state) := by
  induction count generalizing state with
  | zero => rw [Nat.zero_add]; rfl
  | succ count ih => rw [Nat.succ_add, turns, ih, turns]

theorem turns_nil (count : Nat) (sequence : List α) :
    turns inputs count ([], sequence) = ([], sequence) := by
  induction count with
  | zero => rfl
  | succ count ih => exact ih

namespace Emitted

variable {sequence : List α}

omit [DecidableEq α] in
theorem nodup (emitted : Emitted inputs sequence) : sequence.Nodup := by
  induction emitted with
  | nil => exact nodup_nil
  | snoc _ fresh _ ih =>
    refine nodup_append.mpr ⟨ih, nodup_singleton _, ?_⟩
    rintro node member _ isNode rfl
    exact fresh (mem_singleton.mp isNode ▸ member)

omit [DecidableEq α] in
theorem inputs_subset (emitted : Emitted inputs sequence) :
    ∀ node ∈ sequence, inputs node ⊆ sequence := by
  induction emitted with
  | nil => exact fun node member => absurd member not_mem_nil
  | snoc _ _ before ih =>
    intro node member
    rcases mem_append.mp member with member | member
    · exact subset_append_of_subset_left _ (ih node member)
    · rw [mem_singleton.mp member]
      exact subset_append_of_subset_left _ before

omit [DecidableEq α] in
theorem input_before (emitted : Emitted inputs sequence) {i : Nat} {node input : α}
    (isNode : sequence[i]? = some node) (isInput : input ∈ inputs node) :
    ∃ j < i, sequence[j]? = some input := by
  induction emitted with
  | nil => nomatch isNode
  | @snoc sequence last emitted fresh before ih =>
    rcases lt_or_ge i sequence.length with less | le
    · rw [getElem?_append_left less] at isNode
      obtain ⟨j, lessNode, isPlace⟩ := ih isNode
      refine ⟨j, lessNode, ?_⟩
      rw [getElem?_append_left (lt_trans lessNode less), isPlace]
    · rw [getElem?_append_right le, getElem?_singleton] at isNode
      split at isNode
      · obtain rfl := Option.some.inj isNode
        obtain ⟨j, isPlace⟩ := getElem?_of_mem (before isInput)
        have less := (List.getElem?_eq_some_iff.mp isPlace).1
        refine ⟨j, lt_of_lt_of_le less le, ?_⟩
        rw [getElem?_append_left less, isPlace]
      · nomatch isNode

end Emitted

/-- The turns until a node is taken from the stack: what they add, and how many they
are. -/
structure Visit (inputs : α → List α) (node : α) (rest sequence added : List α)
    (count : Nat) : Prop where
  runs : turns inputs count (node :: rest, sequence) = (rest, sequence ++ added)
  emitted : Emitted inputs (sequence ++ added)
  member : node ∈ sequence ++ added
  needed : ∀ other ∈ added, Needs inputs node other
  count_lt : count < 2 * added.length

/-- A node that is not emitted yet is emitted behind all that it needs. -/
theorem exists_visit (acyclic : WellFounded fun input node => input ∈ inputs node)
    (node : α) (rest : List α) {sequence : List α} (emitted : Emitted inputs sequence)
    (fresh : node ∉ sequence) : ∃ added count, Visit inputs node rest sequence added count := by
  induction node using acyclic.induction generalizing rest sequence with
  | _ node visit =>
    -- the inputs that are missing get fewer with each that is visited
    induction isCount : ((inputs node).filter fun input => decide (input ∉ sequence)).length
      using Nat.strongRecOn generalizing sequence with
    | ind few again =>
      cases first : (inputs node).find? fun input => decide (input ∉ sequence) with
      | none =>
        have all : inputs node ⊆ sequence := fun input member => by
          have present := List.find?_eq_none.mp first input member
          rwa [decide_eq_true_iff, not_not] at present
        refine ⟨[node], 1, ?_, .snoc emitted fresh all, ?_, ?_, Nat.lt_succ_self 1⟩
        · rw [turns, turns, turn, if_neg fresh, first]
        · exact mem_append_right _ (mem_singleton_self _)
        · intro other member
          rw [mem_singleton.mp member]
          exact .refl
      | some input =>
        have isInput := mem_of_find?_eq_some first
        have isFresh : input ∉ sequence := by
          have missing := find?_some first
          rwa [decide_eq_true_iff] at missing
        obtain ⟨added, count, visits⟩ := visit input isInput (node :: rest) emitted isFresh
        have starts : turns inputs (1 + count) (node :: rest, sequence) =
            (node :: rest, sequence ++ added) := by
          rw [turns_add, ← visits.runs, turns, turns, turn, if_neg fresh, first]
        have isMissing : node ∉ sequence ++ added := by
          intro done
          have below := visits.needed node ((mem_append.mp done).resolve_left fresh)
          exact acyclic.transGen.irrefl.irrefl node (.tail' below isInput)
        have fewer : ((inputs node).filter fun input =>
            decide (input ∉ sequence ++ added)).length < few := by
          have part : ((inputs node).filter fun input =>
              decide (input ∉ sequence ++ added)) =
              ((inputs node).filter fun input => decide (input ∉ sequence)).filter
                fun input => decide (input ∉ sequence ++ added) := by
            rw [filter_filter]
            refine filter_congr fun other _ => ?_
            rw [Bool.eq_iff_iff, Bool.and_eq_true, decide_eq_true_iff, decide_eq_true_iff]
            exact ⟨fun missing => ⟨missing, fun member =>
              missing (mem_append_left _ member)⟩, And.left⟩
          rw [part, ← isCount]
          refine length_filter_lt_length_iff_exists.mpr
            ⟨input, mem_filter.mpr ⟨isInput, decide_eq_true isFresh⟩, ?_⟩
          rw [decide_eq_true_iff, not_not]
          exact visits.member
        obtain ⟨added', count', visits'⟩ := again _ fewer visits.emitted isMissing rfl
        refine ⟨added ++ added', 1 + count + count', ?_, ?_, ?_, ?_, ?_⟩
        · rw [turns_add, starts, visits'.runs, append_assoc]
        · rw [← append_assoc]
          exact visits'.emitted
        · rw [← append_assoc]
          exact visits'.member
        · intro other member
          rcases mem_append.mp member with member | member
          · exact (visits.needed other member).tail isInput
          · exact visits'.needed other member
        · have lt := visits.count_lt
          have lt' := visits'.count_lt
          rw [length_append]
          omega

/-- The turns until the stack is empty: each node of the stack costs one more turn at
most, each node that is emitted two. -/
theorem exists_empty (acyclic : WellFounded fun input node => input ∈ inputs node)
    (stack : List α) {sequence : List α} (emitted : Emitted inputs sequence) :
    ∃ added count, turns inputs count (stack, sequence) = ([], sequence ++ added) ∧
      Emitted inputs (sequence ++ added) ∧ stack ⊆ sequence ++ added ∧
      (∀ other ∈ added, ∃ node ∈ stack, Needs inputs node other) ∧
      count ≤ stack.length + 2 * added.length := by
  induction stack generalizing sequence with
  | nil =>
    refine ⟨[], 0, by rw [append_nil]; rfl, by rwa [append_nil],
      nil_subset _, fun other member => absurd member not_mem_nil, le_refl _⟩
  | cons node rest ih =>
    by_cases done : node ∈ sequence
    · obtain ⟨added, count, runs, emitted', subset, needed, le⟩ := ih emitted
      refine ⟨added, count + 1, ?_, emitted', ?_, ?_, ?_⟩
      · rw [turns, turn, if_pos done, runs]
      · exact cons_subset.mpr ⟨mem_append_left _ done, subset⟩
      · exact fun other member => (needed other member).imp fun _ both =>
          ⟨mem_cons_of_mem _ both.1, both.2⟩
      · rw [length_cons]
        omega
    · obtain ⟨first, count, visits⟩ := exists_visit acyclic node rest emitted done
      obtain ⟨added, count', runs, emitted', subset, needed, le⟩ := ih visits.emitted
      refine ⟨first ++ added, count + count', ?_, ?_, ?_, ?_, ?_⟩
      · rw [turns_add, visits.runs, runs, append_assoc]
      · rwa [← append_assoc]
      · rw [← append_assoc]
        exact cons_subset.mpr ⟨mem_append_left _ visits.member, subset⟩
      · intro other member
        rcases mem_append.mp member with member | member
        · exact ⟨node, mem_cons_self, visits.needed other member⟩
        · obtain ⟨root, isRoot, needs⟩ := needed other member
          exact ⟨root, mem_cons_of_mem _ isRoot, needs⟩
      · have lt := visits.count_lt
        rw [length_append, length_cons]
        omega

end Mnn.Foundation.DepthFirst
