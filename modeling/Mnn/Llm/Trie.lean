import Mathlib

/-!
# The trie of the tokenizers

Nodes are numbered in the order in which they are made.  A trie means a set of
byte strings, those on the way to a node, with a token id for some of them.
-/

variable {trie : Trie}

namespace Mnn.Llm

open List
open Function
open Nat

/-- A `char`. -/
abbrev Byte := UInt8

structure TrieNode where
  children : Byte → Option Nat := fun _ => none
  id : Int := -1

/-- The nodes in `list`; those from `size` on are free. -/
structure Trie where
  list : Nat → TrieNode := fun _ => {}
  size : Nat := 1

namespace Trie

/-! ## Operations -/

/-- The private `insert`, from a node on. -/
def insertAt (trie : Trie) (nid : Nat) (token_id : Int) : List Byte → Trie
  | [] =>
    if (trie.list nid).id = -1 then
      { trie with
        list := update trie.list nid { trie.list nid with id := token_id } }
    else
      trie
  | c :: rest =>
    match (trie.list nid).children c with
    | none =>
      let new_id := trie.size
      let node :=
        { trie.list nid with
          children := update (trie.list nid).children c (some new_id) }
      insertAt
        { list := update trie.list nid node
          size := trie.size + 1 }
        new_id token_id rest
    | some cid => insertAt trie cid token_id rest

def insert (trie : Trie) (entry : List Byte × Int) : Trie := insertAt trie 0 entry.2 entry.1

/--
The private `find`, from a node on.  The bytes at `it` and behind are those
that may be read: the rest of the text and the `NUL` that ends it.  There is no
result if a byte behind these is read.
-/
def findAt (trie : Trie) (nid : Nat) (current_matched : Int) (current_it it : Nat) :
    List Byte → Option (Int × Nat)
  | [] => none
  | c :: rest =>
    let node := trie.list nid
    let current_matched := if node.id ≠ -1 then node.id else current_matched
    let current_it := if node.id ≠ -1 then it else current_it
    match node.children c with
    | some cid => findAt trie cid current_matched current_it (it + 1) rest
    | none =>
      if node.id ≠ -1 then
        some (node.id, it)
      else
        some (current_matched, current_it)

/-- `find`, with the token id and the position behind the token. -/
def find (trie : Trie) (text : List Byte) (it : Nat) : Option (Int × Nat) :=
  if it = text.length then
    some (-1, it)
  else
    findAt trie 0 (-1) (it + 1) it ((text ++ [0]).drop it)

/-! ## Meaning -/

/-- The node on the way along some bytes. -/
def walk (trie : Trie) (nid : Nat) : List Byte → Option Nat
  | [] => some nid
  | c :: rest =>
    match (trie.list nid).children c with
    | none => none
    | some cid => walk trie cid rest

/-- The byte string leads to a node. -/
def Has (trie : Trie) (path : List Byte) : Prop := (trie.walk 0 path).isSome

/-- The token id of a byte string. -/
def idOf (trie : Trie) (path : List Byte) : Int :=
  match trie.walk 0 path with
  | none => -1
  | some nid => (trie.list nid).id

/-- The nodes make up a tree, and those that are free are as new. -/
structure WellFormed (trie : Trie) : Prop where
  root : 0 < trie.size
  free : ∀ nid, trie.size ≤ nid → trie.list nid = {}
  child : ∀ nid c cid, (trie.list nid).children c = some cid → nid < cid ∧ cid < trie.size
  parent :
    ∀ nid nid' c c' cid, (trie.list nid).children c = some cid →
      (trie.list nid').children c' = some cid → nid = nid' ∧ c = c'

theorem walk_append (trie : Trie) (nid : Nat) (path more : List Byte) :
    trie.walk nid (path ++ more) =
      (trie.walk nid path).bind fun reached => trie.walk reached more := by
  induction path generalizing nid with
  | nil => rfl
  | cons c rest ih =>
    rw [cons_append, walk, walk]
    cases (trie.list nid).children c with
    | none => rfl
    | some cid => exact ih cid

theorem walk_singleton (trie : Trie) (nid : Nat) (c : Byte) :
    trie.walk nid [c] = (trie.list nid).children c := by
  rw [walk]
  cases (trie.list nid).children c <;> rfl

theorem Has.of_append {path more : List Byte} (has : trie.Has (path ++ more)) :
    trie.Has path := by
  unfold Has at *
  rw [walk_append] at has
  cases reached : trie.walk 0 path with
  | none => rw [reached] at has; exact has
  | some nid => rfl

theorem idOf_of_not_has {path : List Byte} (hasNot : ¬trie.Has path) :
    trie.idOf path = -1 := by
  unfold Has at hasNot
  rw [Option.not_isSome_iff_eq_none] at hasNot
  rw [idOf, hasNot]

theorem idOf_of_walk {path : List Byte} {nid : Nat} (reached : trie.walk 0 path = some nid) :
    trie.idOf path = (trie.list nid).id := by
  rw [idOf, reached]

namespace WellFormed

variable {trie : Trie} {nid reached : Nat}

theorem walk_le (wellFormed : trie.WellFormed) {path : List Byte}
    (way : trie.walk nid path = some reached) : nid + path.length ≤ reached := by
  induction path generalizing nid with
  | nil => exact le_of_eq (Option.some.inj way)
  | cons c rest ih =>
    rw [walk] at way
    cases isChild : (trie.list nid).children c with
    | none => rw [isChild] at way; nomatch way
    | some cid =>
      rw [isChild] at way
      have less := (wellFormed.child nid c cid isChild).1
      have later := ih way
      rw [length_cons]
      omega

theorem walk_lt (wellFormed : trie.WellFormed) {path : List Byte}
    (less : nid < trie.size) (way : trie.walk nid path = some reached) :
    reached < trie.size := by
  induction path generalizing nid with
  | nil => rwa [← Option.some.inj way]
  | cons c rest ih =>
    rw [walk] at way
    cases isChild : (trie.list nid).children c with
    | none => rw [isChild] at way; nomatch way
    | some cid =>
      rw [isChild] at way
      exact ih (wellFormed.child nid c cid isChild).2 way

theorem walk_inj (wellFormed : trie.WellFormed) {path path' : List Byte}
    (way : trie.walk 0 path = some reached)
    (way' : trie.walk 0 path' = some reached) : path = path' := by
  induction path using List.reverseRecOn generalizing path' reached with
  | nil =>
    have isRoot : 0 = reached := Option.some.inj way
    have bound := wellFormed.walk_le way'
    have short : path'.length = 0 := by
      omega
    exact (eq_nil_of_length_eq_zero short).symm
  | append_singleton front c ih =>
    cases path' using List.reverseRecOn with
    | nil =>
      have isRoot : 0 = reached := Option.some.inj way'
      have bound := wellFormed.walk_le way
      rw [length_append, length_singleton] at bound
      omega
    | append_singleton front' c' =>
      rw [walk_append] at way way'
      rcases Option.bind_eq_some_iff.mp way with ⟨nid, wayFront, last⟩
      rcases Option.bind_eq_some_iff.mp way' with ⟨nid', wayFront', last'⟩
      rw [walk_singleton] at last last'
      rcases wellFormed.parent nid nid' c c' reached last last' with
        ⟨rfl, rfl⟩
      rw [ih wayFront wayFront']

end WellFormed

/-! ## Insertion -/

/-- The trie in which a node has got an id. -/
def setId (trie : Trie) (nid : Nat) (token_id : Int) : Trie :=
  { trie with
    list := update trie.list nid { trie.list nid with id := token_id } }

/-- The trie in which a node has got a new child. -/
def addChild (trie : Trie) (nid : Nat) (c : Byte) : Trie :=
  let node :=
    { trie.list nid with
      children := update (trie.list nid).children c (some trie.size) }
  { list := update trie.list nid node
    size := trie.size + 1 }

theorem walk_congr {trie' : Trie}
    (same : ∀ nid, (trie'.list nid).children = (trie.list nid).children)
    (nid : Nat) (path : List Byte) :
    trie'.walk nid path = trie.walk nid path := by
  induction path generalizing nid with
  | nil => rfl
  | cons c rest ih =>
    rw [walk, walk, same]
    cases (trie.list nid).children c with
    | none => rfl
    | some cid => exact ih cid

theorem setId_children (trie : Trie) (nid : Nat) (token_id : Int) (other : Nat) :
    ((trie.setId nid token_id).list other).children =
      (trie.list other).children := by
  by_cases here : other = nid
  · subst here
    simp only [setId, update_self]
  · simp only [setId, update_of_ne here]

namespace WellFormed

variable {trie : Trie} {nid : Nat}

theorem setId (wellFormed : trie.WellFormed) (used : nid < trie.size)
    (token_id : Int) : (trie.setId nid token_id).WellFormed := by
  constructor
  · exact wellFormed.root
  · intro other isFree
    have different : other ≠ nid := ne_of_gt (lt_of_lt_of_le used isFree)
    simp only [Trie.setId, update_of_ne different]
    exact wellFormed.free other isFree
  · intro other c cid
    rw [setId_children]
    exact wellFormed.child other c cid
  · intro other other' c c' cid
    rw [setId_children, setId_children]
    exact wellFormed.parent other other' c c' cid

theorem idOf_setId (wellFormed : trie.WellFormed) {path : List Byte}
    (way : trie.walk 0 path = some nid) (token_id : Int) (other : List Byte) :
    (trie.setId nid token_id).idOf other =
      if other = path then token_id else trie.idOf other := by
  unfold idOf
  rw [walk_congr (setId_children trie nid token_id)]
  cases wayOther : trie.walk 0 other with
  | none =>
    rw [if_neg]
    rintro rfl
    rw [way] at wayOther
    nomatch wayOther
  | some reached =>
    by_cases here : reached = nid
    · subst here
      rw [if_pos (wellFormed.walk_inj wayOther way)]
      simp only [Trie.setId, update_self]
    · rw [if_neg]
      · simp only [Trie.setId, update_of_ne here]
      · rintro rfl
        rw [way] at wayOther
        exact here (Option.some.inj wayOther).symm

theorem addChild_children (nid : Nat) (c : Byte) (other : Nat) (c' : Byte) :
    ((trie.addChild nid c).list other).children c' =
      if other = nid ∧ c' = c then some trie.size
      else (trie.list other).children c' := by
  by_cases here : other = nid
  · subst here
    by_cases sameByte : c' = c
    · subst sameByte
      simp only [addChild, update_self, and_self, if_true]
    · simp only [addChild, update_self,
        update_of_ne sameByte, sameByte, and_false, if_false]
  · simp only [addChild, update_of_ne here, here, false_and, if_false]

theorem addChild_id (nid : Nat) (c : Byte) (other : Nat) :
    ((trie.addChild nid c).list other).id = (trie.list other).id := by
  by_cases here : other = nid
  · subst here
    simp only [addChild, update_self]
  · simp only [addChild, update_of_ne here]

theorem addChild (wellFormed : trie.WellFormed) (used : nid < trie.size)
    (c : Byte) : (trie.addChild nid c).WellFormed := by
  constructor
  · exact succ_pos _
  · intro other isFree
    have behind : trie.size + 1 ≤ other := isFree
    have different : other ≠ nid := by
      omega
    simp only [Trie.addChild, update_of_ne different]
    exact wellFormed.free other (le_of_succ_le behind)
  · intro other c' cid isChild
    show other < cid ∧ cid < trie.size + 1
    rw [addChild_children] at isChild
    split at isChild
    · next new =>
      rw [← Option.some.inj isChild, new.1]
      exact ⟨used, lt_succ_self _⟩
    · have bounds := wellFormed.child other c' cid isChild
      exact ⟨bounds.1, lt_succ_of_lt bounds.2⟩
  · intro other other' c₁ c₂ cid isChild isChild'
    rw [addChild_children] at isChild isChild'
    split at isChild
    · next new =>
      split at isChild'
      · next new' => exact ⟨new.1.trans new'.1.symm, new.2.trans new'.2.symm⟩
      · have less := (wellFormed.child other' c₂ cid isChild').2
        rw [← Option.some.inj isChild] at less
        exact absurd less (lt_irrefl _)
    · split at isChild'
      · have less := (wellFormed.child other c₁ cid isChild).2
        rw [← Option.some.inj isChild'] at less
        exact absurd less (lt_irrefl _)
      · exact wellFormed.parent other other' c₁ c₂ cid isChild isChild'

theorem walk_addChild (wellFormed : trie.WellFormed) {path : List Byte}
    (way : trie.walk 0 path = some nid) {c : Byte}
    (noChild : (trie.list nid).children c = none) (other : List Byte) :
    (trie.addChild nid c).walk 0 other =
      if other = path ++ [c] then some trie.size else trie.walk 0 other := by
  have used := wellFormed.walk_lt wellFormed.root way
  induction other using List.reverseRecOn with
  | nil =>
    rw [if_neg (append_ne_nil_of_right_ne_nil _ (cons_ne_nil _ _)).symm]
    rfl
  | append_singleton front d ih =>
    rw [walk_append, walk_append, ih]
    by_cases isNew : front = path ++ [c]
    · subst isNew
      have noWay : trie.walk 0 (path ++ [c]) = none := by
        rw [walk_append, way, Option.bind_some, walk_singleton, noChild]
      have different : ¬path ++ [c] ++ [d] = path ++ [c] := by
        intro same
        have lengths := congrArg List.length same
        simp at lengths
      rw [if_pos rfl, if_neg different, noWay, Option.bind_some, walk_singleton, addChild_children,
        if_neg fun both => ne_of_gt used both.1,
        wellFormed.free _ (le_refl _)]
      rfl
    · rw [if_neg isNew]
      cases wayFront : trie.walk 0 front with
      | none =>
        rw [if_neg]
        · rfl
        · intro same
          rcases append_inj' same rfl with ⟨rfl, -⟩
          rw [way] at wayFront
          nomatch wayFront
      | some reached =>
        rw [Option.bind_some, Option.bind_some, walk_singleton, walk_singleton, addChild_children]
        refine if_congr ?_ rfl rfl
        constructor
        · rintro ⟨rfl, rfl⟩
          rw [wellFormed.walk_inj wayFront way]
        · intro same
          rcases append_inj' same rfl with ⟨rfl, sameByte⟩
          rw [way] at wayFront
          exact ⟨(Option.some.inj wayFront).symm, singleton_inj.mp sameByte⟩

end WellFormed

/-- What an insertion does to the set of byte strings and to the ids. -/
structure Inserts
    (trie trie' : Trie) (token : List Byte) (token_id : Int) : Prop where
  wellFormed : trie'.WellFormed
  has : ∀ path, trie'.Has path ↔ trie.Has path ∨ path <+: token
  idOf :
    ∀ path, trie'.idOf path =
      if path = token ∧ trie.idOf path = -1 then token_id else trie.idOf path

theorem WellFormed.insertAt (wellFormed : trie.WellFormed) {nid : Nat}
    {path : List Byte} (way : trie.walk 0 path = some nid) (token_id : Int) (rest : List Byte) :
    Inserts trie (trie.insertAt nid token_id rest) (path ++ rest) token_id := by
  induction rest generalizing trie nid path with
  | nil =>
    have used := wellFormed.walk_lt wellFormed.root way
    have hasPrefix : ∀ other, other <+: path → trie.Has other := by
      rintro other ⟨more, rfl⟩
      exact Has.of_append (Option.isSome_iff_exists.mpr ⟨nid, way⟩)
    rw [append_nil]
    unfold Trie.insertAt
    split
    · next unset =>
      constructor
      · exact wellFormed.setId used token_id
      · intro other
        unfold Has
        show ((trie.setId nid token_id).walk 0 other).isSome ↔ _
        rw [walk_congr (setId_children trie nid token_id)]
        exact (or_iff_left_of_imp (hasPrefix other)).symm
      · intro other
        refine (wellFormed.idOf_setId way token_id other).trans ?_
        refine if_congr ?_ rfl rfl
        constructor
        · rintro rfl
          exact ⟨rfl, (idOf_of_walk way).trans unset⟩
        · exact And.left
    · next set =>
      constructor
      · exact wellFormed
      · exact fun other => (or_iff_left_of_imp (hasPrefix other)).symm
      · intro other
        rw [if_neg]
        rintro ⟨rfl, unset⟩
        exact set ((idOf_of_walk way).symm.trans unset)
  | cons c rest ih =>
    have used := wellFormed.walk_lt wellFormed.root way
    rw [append_cons]
    unfold Trie.insertAt
    split
    · next noChild =>
      have wayNew := wellFormed.walk_addChild way noChild
      have here := wayNew (path ++ [c])
      rw [if_pos rfl] at here
      have later := ih (wellFormed.addChild used c) here
      constructor
      · exact later.wellFormed
      · intro other
        refine (later.has other).trans ?_
        have hasNew : (trie.addChild nid c).Has other ↔ trie.Has other ∨ other = path ++ [c] := by
          unfold Has
          rw [wayNew]
          by_cases isNew : other = path ++ [c]
          · rw [if_pos isNew]
            exact iff_of_true rfl (Or.inr isNew)
          · rw [if_neg isNew]
            exact (or_iff_left isNew).symm
        rw [hasNew, or_assoc]
        refine or_congr_right (or_iff_right_of_imp ?_)
        rintro rfl
        exact prefix_append ..
      · intro other
        refine (later.idOf other).trans ?_
        have sameId : (trie.addChild nid c).idOf other = trie.idOf other := by
          unfold idOf
          rw [wayNew]
          by_cases isNew : other = path ++ [c]
          · subst isNew
            have noWay : trie.walk 0 (path ++ [c]) = none := by
              rw [walk_append, way, Option.bind_some, walk_singleton, noChild]
            rw [if_pos rfl, noWay]
            show ((trie.addChild nid c).list trie.size).id = -1
            rw [WellFormed.addChild_id, wellFormed.free _ (le_refl _)]
          · rw [if_neg isNew]
            cases trie.walk 0 other with
            | none => rfl
            | some reached => exact WellFormed.addChild_id nid c reached
        rw [sameId]
    · next cid isChild =>
      apply ih wellFormed
      rw [walk_append, way, Option.bind_some, walk_singleton, isChild]

theorem WellFormed.insert (wellFormed : trie.WellFormed) (entry : List Byte × Int) :
    Inserts trie (trie.insert entry) entry.1 entry.2 :=
  @WellFormed.insertAt trie wellFormed 0 [] rfl entry.2 entry.1

theorem wellFormed_empty : WellFormed {} := by
  constructor
  · exact Nat.one_pos
  · exact fun _ _ => rfl
  · exact fun _ _ _ impossible => nomatch impossible
  · exact fun _ _ _ _ _ impossible => nomatch impossible

/-- The byte strings behind some insertions of different tokens. -/
theorem foldl_insert (wellFormed : trie.WellFormed) {entries : List (List Byte × Int)}
    (distinct : (entries.map Prod.fst).Nodup)
    (fresh : ∀ entry ∈ entries, trie.idOf entry.1 = -1 ∧ entry.2 ≠ -1) :
    let filled := entries.foldl insert trie
    filled.WellFormed ∧ (∀ path, filled.Has path ↔
          trie.Has path ∨ ∃ entry ∈ entries, path <+: entry.1) ∧
      ∀ path id, id ≠ -1 → (filled.idOf path = id ↔
          trie.idOf path = id ∨ (path, id) ∈ entries) := by
  induction entries generalizing trie with
  | nil =>
    refine ⟨wellFormed, ?_, ?_⟩
    · simp only [foldl_nil, not_mem_nil, false_and, exists_false, or_false, implies_true]
    · simp only [foldl_nil, not_mem_nil, or_false, implies_true]
  | cons entry rest ih =>
    have inserts := wellFormed.insert entry
    rcases nodup_cons.mp distinct with ⟨notLater, distinctLater⟩
    have freshHere := fresh entry mem_cons_self
    have other : ∀ later ∈ rest, ¬later.1 = entry.1 := by
      intro later member same
      exact notLater (same ▸ mem_map_of_mem member)
    have freshLater : ∀ later ∈ rest, (trie.insert entry).idOf later.1 = -1 ∧ later.2 ≠ -1 := by
      intro later member
      rw [inserts.idOf, if_neg fun both => other later member both.1]
      exact fresh later (mem_cons_of_mem _ member)
    rcases ih inserts.wellFormed distinctLater freshLater with
      ⟨wellFormedLater, has, idOf⟩
    refine ⟨wellFormedLater, ?_, ?_⟩
    · intro path
      simp only [foldl_cons, has, inserts.has, mem_cons, exists_eq_or_imp, or_assoc]
    · intro path id isSet
      rw [foldl_cons, idOf path id isSet, inserts.idOf, mem_cons, ← or_assoc]
      refine or_congr_left ?_
      by_cases here : path = entry.1
      · subst here
        rw [if_pos ⟨rfl, freshHere.1⟩, freshHere.1]
        constructor
        · rintro rfl
          exact Or.inr rfl
        · rintro (unset | same)
          · exact absurd unset.symm isSet
          · rw [← same]
      · rw [if_neg fun both => here both.1]
        refine (or_iff_left ?_).symm
        rintro rfl
        exact here rfl

/--
The result is the id of the longest string that has one, and the position
behind it.  There is no result if all bytes were read.
-/
theorem findAt_spec {nid : Nat} {path : List Byte}
    (way : trie.walk 0 path = some nid) (current_matched : Int)
    (current_it it : Nat) (bytes : List Byte) :
    (trie.findAt nid current_matched current_it it bytes = none ↔ trie.Has (path ++ bytes)) ∧
      ∀ id end_it, trie.findAt nid current_matched current_it it bytes = some (id, end_it) →
          (∃ count ≤ bytes.length, trie.idOf (path ++ bytes.take count) = id ∧ id ≠ -1 ∧
                end_it = it + count ∧
                ∀ more ≤ bytes.length, count < more → trie.idOf (path ++ bytes.take more) = -1) ∨
            ((∀ count ≤ bytes.length, trie.idOf (path ++ bytes.take count) = -1) ∧
              id = current_matched ∧ end_it = current_it) := by
  induction bytes generalizing nid path current_matched current_it it with
  | nil =>
    constructor
    · rw [append_nil]
      exact iff_of_true rfl (Option.isSome_iff_exists.mpr ⟨nid, way⟩)
    · exact fun _ _ impossible => nomatch impossible
  | cons c rest ih =>
    have isHere : trie.idOf path = (trie.list nid).id := idOf_of_walk way
    have along : trie.walk 0 (path ++ [c]) = (trie.list nid).children c := by
      rw [walk_append, way, Option.bind_some, walk_singleton]
    unfold findAt
    simp only
    cases isChild : (trie.list nid).children c with
    | some cid =>
      rw [isChild] at along
      simp only
      rcases ih along (if (trie.list nid).id ≠ -1 then (trie.list nid).id
              else current_matched)
            (if (trie.list nid).id ≠ -1 then it else current_it) (it + 1) with
        ⟨reads, finds⟩
      rw [← append_cons] at reads
      refine ⟨reads, ?_⟩
      intro id end_it found
      rcases finds id end_it found with
        ⟨count, countLe, isId, isSet, isEnd, longest⟩ | ⟨unset, isId, isEnd⟩
      · left
        refine ⟨count + 1, succ_le_succ countLe, ?_, isSet, ?_, ?_⟩
        · rwa [take_succ_cons, append_cons]
        · rw [isEnd, Nat.add_assoc, Nat.add_comm 1]
        · intro more moreLe less
          cases more with
          | zero => cases less
          | succ more =>
            rw [take_succ_cons, append_cons]
            exact longest more (le_of_succ_le_succ moreLe) (lt_of_succ_lt_succ less)
      · have unsetLater :
            ∀ count ≤ rest.length, trie.idOf (path ++ (c :: rest).take (count + 1)) = -1 := by
          intro count countLe
          rw [take_succ_cons, append_cons]
          exact unset count countLe
        by_cases setHere : (trie.list nid).id = -1
        · right
          rw [if_neg (not_not_intro setHere)] at isId isEnd
          refine ⟨?_, isId, isEnd⟩
          intro count countLe
          cases count with
          | zero =>
            rw [take_zero, append_nil, isHere, setHere]
          | succ count =>
            exact unsetLater count (le_of_succ_le_succ countLe)
        · left
          rw [if_pos setHere] at isId isEnd
          refine ⟨0, zero_le _, ?_, ?_, isEnd, ?_⟩
          · rw [take_zero, append_nil, isHere, isId]
          · rwa [isId]
          · intro more moreLe less
            cases more with
            | zero => exact absurd less (lt_irrefl 0)
            | succ more =>
              exact unsetLater more (le_of_succ_le_succ moreLe)
    | none =>
      rw [isChild] at along
      have hasNot : ∀ more, ¬trie.Has (path ++ c :: more) := by
        intro more has
        rw [append_cons] at has
        have hasChild := has.of_append
        unfold Has at hasChild
        rw [along] at hasChild
        nomatch hasChild
      have unsetLater : ∀ count, trie.idOf (path ++ (c :: rest).take (count + 1)) = -1 := by
        intro count
        rw [take_succ_cons]
        exact idOf_of_not_has (hasNot _)
      simp only
      constructor
      · refine iff_of_false ?_ (hasNot rest)
        split
        · exact nofun
        · exact nofun
      · intro id end_it found
        by_cases setHere : (trie.list nid).id = -1
        · right
          rw [if_neg (not_not_intro setHere), if_neg (not_not_intro setHere),
            if_neg (not_not_intro setHere)] at found
          rcases Prod.mk.inj (Option.some.inj found) with ⟨isId, isEnd⟩
          refine ⟨?_, isId.symm, isEnd.symm⟩
          intro count countLe
          cases count with
          | zero =>
            rw [take_zero, append_nil, isHere, setHere]
          | succ count => exact unsetLater count
        · left
          rw [if_pos setHere] at found
          rcases Prod.mk.inj (Option.some.inj found) with ⟨rfl, rfl⟩
          refine ⟨0, zero_le _, ?_, setHere, rfl, ?_⟩
          · rw [take_zero, append_nil, isHere]
          · intro more _ less
            cases more with
            | zero => exact absurd less (lt_irrefl 0)
            | succ more => exact unsetLater more

end Trie

end Mnn.Llm
