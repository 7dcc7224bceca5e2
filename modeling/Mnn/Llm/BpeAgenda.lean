import Mnn.Foundation.LinkedList
import Mnn.Llm.Sentencepiece

/-!
# The agenda of `bpe_encode`

The symbols that are left begin at certain characters of the text, and each
ends where the next begins.  So the live symbols determine all views, and an
entry of the agenda with the size of two adjacent symbols is an entry for just
these.
-/

variable {first stop i left right : Nat}

namespace Mnn.Llm

open Mnn.Foundation.LinkedList
open Mnn.Foundation.PairMerging
open List
open Option
open Function

namespace Sentencepiece

variable {Score : Type*} (sentencepiece : Sentencepiece Score)

/-- The score of the piece with this content, if there is one. -/
def scoreOf (piece : List Byte) : Option Score :=
  (sentencepiece.pieces_ piece).map sentencepiece.get_score

/-- The bytes between two places. -/
def span (text : List Byte) (first stop : Nat) : List Byte := (text.drop first).take (stop - first)

theorem span_append (text : List Byte) {middle : Nat} (le : first ≤ middle) (le' : middle ≤ stop) :
    span text first middle ++ span text middle stop = span text first stop := by
  have places : first + (middle - first) = middle := Nat.add_sub_cancel' le
  have sizes : middle - first + (stop - middle) = stop - first := by
    omega
  rw [span, span, span, ← sizes, take_add, drop_drop, places]

/-- The places at which characters begin; the last is the end of the text. -/
structure Cuts (text : List Byte) (count : Nat) (cut : Nat → Nat) : Prop where
  first : cut 0 = 0
  last : cut count = text.length
  mono : ∀ i j, i < j → j ≤ count → cut i < cut j

theorem span_ne_nil {text : List Byte} (less : first < stop)
    (inText : stop ≤ text.length) : span text first stop ≠ [] := by
  have length : (span text first stop).length = stop - first := by
    rw [span, length_take, length_drop]
    omega
  intro empty
  rw [empty, length_nil] at length
  omega

theorem Cuts.le_length {text : List Byte} {count : Nat} {cut : Nat → Nat}
    (cuts : Cuts text count cut) (inCount : i ≤ count) :
    cut i ≤ text.length := by
  rw [← cuts.last]
  rcases lt_or_eq_of_le inCount with less | rfl
  · exact le_of_lt (cuts.mono i count less (le_refl _))
  · exact le_refl _

/-- The contents of symbols that begin at these characters. -/
def contents (text : List Byte) (cut : Nat → Nat) (stop : Nat) : List Nat → List (List Byte)
  | [] => []
  | i :: rest =>
    span text (cut i) (cut (rest.headD stop)) :: contents text cut stop rest

theorem contents_append (text : List Byte) (cut : Nat → Nat) (stop : Nat) (before : List Nat)
    (i : Nat) (after : List Nat) :
    contents text cut stop (before ++ i :: after) =
      contents text cut i before ++ contents text cut stop (i :: after) := by
  induction before with
  | nil => rfl
  | cons first rest ih =>
    rw [cons_append, contents, contents, ih]
    cases rest <;> rfl

theorem length_contents (text : List Byte) (cut : Nat → Nat) (stop : Nat) (live : List Nat) :
    (contents text cut stop live).length = live.length := by
  induction live with
  | nil => rfl
  | cons i rest ih =>
    rw [contents, length_cons, length_cons, ih]

/-- Where an element of a list lies that another element splits. -/
theorem split_cases {α : Type*} {before after before' after' : List α} {here there : α}
    (same : before ++ here :: after = before' ++ there :: after') :
    (∃ between, before = before' ++ there :: between ∧ after' = between ++ here :: after) ∨
      (before' = before ∧ there = here ∧ after' = after) ∨
      ∃ between, before' = before ++ here :: between ∧ after = between ++ there :: after' := by
  rcases append_eq_append_iff.mp same with
    ⟨between, isBefore', rest⟩ | ⟨between, isBefore, rest⟩
  · cases between with
    | nil =>
      rcases List.cons.inj rest with ⟨rfl, rfl⟩
      rw [append_nil] at isBefore'
      exact Or.inr (Or.inl ⟨isBefore', rfl, rfl⟩)
    | cons first between =>
      rcases List.cons.inj rest with ⟨rfl, rfl⟩
      exact Or.inr (Or.inr ⟨between, isBefore', rfl⟩)
  · cases between with
    | nil =>
      rcases List.cons.inj rest with ⟨rfl, rfl⟩
      rw [append_nil] at isBefore
      exact Or.inr (Or.inl ⟨isBefore.symm, rfl, rfl⟩)
    | cons first between =>
      rcases List.cons.inj rest with ⟨rfl, rfl⟩
      exact Or.inl ⟨between, isBefore, rfl⟩

/-! ## Symbols -/

/-- The symbols that are left, from the first character to the last. -/
structure Threads
    (count : Nat) (cut : Nat → Nat) (symbols : Nat → Symbol)
    (live : List Nat) : Prop where
  sorted : live.Pairwise (· < ·)
  bounded : ∀ i ∈ live, i < count
  linked : Linked (fun i => (symbols i).prev) (fun i => (symbols i).next) none live
      none
  thawed : ∀ i, (symbols i).freeze = false
  piece :
    ∀ before i after, live = before ++ i :: after → (symbols i).piece =
        { data := cut i, size := cut (after.headD count) - cut i }
  dead : ∀ i, i ∉ live → (symbols i).piece.size = 0

variable {text : List Byte} {count : Nat} {cut : Nat → Nat}

namespace Threads

variable {symbols : Nat → Symbol} {live : List Nat}

section

variable (threads : Threads count cut symbols live)

include threads

theorem nodup : live.Nodup :=
  threads.sorted.imp ne_of_lt

theorem stop_bounds {before after : List Nat} (isLive : live = before ++ i :: after) :
    i < after.headD count ∧ after.headD count ≤ count := by
  have sorted := threads.sorted
  rw [isLive] at sorted
  have first := (pairwise_cons.mp (pairwise_append.mp sorted).2.1).1
  have bounded := threads.bounded
  rw [isLive] at bounded
  cases after with
  | nil => exact ⟨bounded i (by simp), le_refl _⟩
  | cons next rest =>
    exact ⟨first next mem_cons_self, le_of_lt (bounded next (by simp))⟩

/-- Two live symbols without a live one between them are adjacent. -/
theorem adjacent (leftLive : left ∈ live) (rightLive : right ∈ live) (less : left < right)
    (noneBetween : ∀ k ∈ live, left < k → right ≤ k) :
    ∃ before after, live = before ++ left :: right :: after := by
  rcases append_of_mem leftLive with ⟨before, rest, rfl⟩
  have sorted := pairwise_append.mp threads.sorted
  have first := pairwise_cons.mp sorted.2.1
  have inRest : right ∈ rest := by
    rcases mem_append.mp rightLive with inBefore | inLast
    · have before := sorted.2.2 right inBefore left mem_cons_self
      exact absurd before (lt_asymm less)
    · rcases mem_cons.mp inLast with rfl | inRest
      · exact absurd less (lt_irrefl _)
      · exact inRest
  cases rest with
  | nil => nomatch inRest
  | cons next rest =>
    have nextLive : next ∈ before ++ left :: next :: rest := by
      simp
    have notBefore := noneBetween next nextLive (first.1 next mem_cons_self)
    have same : right = next := by
      rcases mem_cons.mp inRest with same | later
      · exact same
      · have behind := (pairwise_cons.mp first.2).1 right later
        exact absurd notBefore (Nat.not_le_of_lt behind)
    exact ⟨before, rest, by rw [same]⟩

end

end Threads

/-- An entry that still says the same about the text as when it was made. -/
structure Sound
    (text : List Byte) (cut : Nat → Nat) (live : List Nat)
    (entry : SymbolPair Score) : Prop where
  order : entry.left < entry.right
  noneBetween : ∀ k ∈ live, entry.left < k → entry.right ≤ k
  score : sentencepiece.scoreOf (span text (cut entry.left) (cut entry.left + entry.size)) =
      some entry.score

/-- What `rev_merge` has for a piece are its two parts. -/
def Remembers (text : List Byte) (rev_merge : List Byte → Option (View × View)) : Prop :=
  ∀ w first second, rev_merge w = some (first, second) →
    first.bytes text ++ second.bytes text = w ∧ first.bytes text ≠ [] ∧ second.bytes text ≠ [] ∧
      ∃ id, sentencepiece.pieces_ w = some id ∧ sentencepiece.is_unused id = true

/-- The state of the algorithm, when the pairs in `done` were looked up. -/
structure Agrees
    (text : List Byte) (count : Nat) (cut : Nat → Nat) (state : BpeState Score)
    (live : List Nat) (done : Nat → Nat → Prop) : Prop where
  threads : Threads count cut state.symbols live
  sound : ∀ entry ∈ state.agenda, Sound sentencepiece text cut live entry
  complete :
    ∀ before left right after, live = before ++ left :: right :: after → done left right → ∀ score,
        sentencepiece.scoreOf (span text (cut left) (cut (after.headD count))) = some score →
          { left := left
            right := right
            score := score
            size := cut (after.headD count) - cut left } ∈ state.agenda
  remembers : Remembers sentencepiece text state.rev_merge

variable {sentencepiece} {symbols : Nat → Symbol}

theorem Threads.split_unique {live before before' after after' : List Nat}
    (threads : Threads count cut symbols live) (isLive : live = before ++ i :: after)
    (isLive' : live = before' ++ i :: after') :
    before = before' ∧ after = after' := by
  have distinct := threads.nodup
  rw [isLive] at distinct
  rcases nodup_append.mp distinct with ⟨-, rest, apart⟩
  have notAfter := (nodup_cons.mp rest).1
  rcases split_cases (isLive.symm.trans isLive') with
    ⟨between, isBefore, -⟩ | ⟨same, -, same'⟩ | ⟨between, -, isAfter⟩
  · exact absurd rfl (apart i (by simp [isBefore]) i mem_cons_self)
  · exact ⟨same.symm, same'.symm⟩
  · exact absurd (by simp [isAfter]) notAfter

theorem Threads.noneBetween {live before after : List Nat}
    (threads : Threads count cut symbols live) (isLive : live = before ++ left :: right :: after) :
    left < right ∧ ∀ k ∈ live, left < k → right ≤ k := by
  have sorted := threads.sorted
  rw [isLive] at sorted
  rcases pairwise_append.mp sorted with ⟨-, rest, apart⟩
  rcases pairwise_cons.mp rest with ⟨behindLeft, later⟩
  have behindRight := (pairwise_cons.mp later).1
  constructor
  · exact behindLeft right mem_cons_self
  · intro k member less
    rw [isLive, mem_append, mem_cons, mem_cons] at member
    rcases member with inBefore | rfl | rfl | inAfter
    · have before := apart k inBefore left mem_cons_self
      exact absurd before (lt_asymm less)
    · exact absurd less (lt_irrefl _)
    · exact le_refl _
    · exact le_of_lt (behindRight k inAfter)

theorem Agrees.weaken {state : BpeState Score} {live : List Nat} {done done' : Nat → Nat → Prop}
    (agrees : Agrees sentencepiece text count cut state live done)
    (fewer :
      ∀ before left right after, live = before ++ left :: right :: after →
        done' left right → done left right) :
    Agrees sentencepiece text count cut state live done' := by
  constructor
  · exact agrees.threads
  · exact agrees.sound
  · intro before left right after isLive isDone
    exact agrees.complete before left right after isLive
        (fewer before left right after isLive isDone)
  · exact agrees.remembers

theorem Threads.pair_sizes {live before after : List Nat}
    (threads : Threads count cut symbols live) (cuts : Cuts text count cut)
    (isLive : live = before ++ left :: right :: after) :
    (symbols left).piece = { data := cut left, size := cut right - cut left } ∧
      (symbols right).piece = { data := cut right, size := cut (after.headD count) - cut right } ∧
      cut left < cut right ∧ cut right < cut (after.headD count) := by
  have isLive' : live = (before ++ [left]) ++ right :: after := by
    rw [isLive, append_cons]
  have leftBounds := threads.stop_bounds isLive
  have rightBounds := threads.stop_bounds isLive'
  refine ⟨threads.piece before left (right :: after) isLive,
      threads.piece (before ++ [left]) right after isLive', ?_, ?_⟩
  · exact cuts.mono left right leftBounds.1 leftBounds.2
  · exact cuts.mono right _ rightBounds.1 rightBounds.2

theorem maybeAddNewSymbolPair_symbols (state : BpeState Score) (left right : Option Nat) :
    (sentencepiece.maybeAddNewSymbolPair text state left right).symbols =
      state.symbols := by
  unfold maybeAddNewSymbolPair
  cases left with
  | none => rfl
  | some left =>
    cases right with
    | none => rfl
    | some right =>
      simp only
      split
      · rfl
      · cases sentencepiece.pieces_ _ with
        | none => rfl
        | some id => rfl

theorem maybeAddNewSymbolPair_length (state : BpeState Score) (left right : Option Nat) :
    (sentencepiece.maybeAddNewSymbolPair text state left right).agenda.length ≤
      state.agenda.length + 1 := by
  unfold maybeAddNewSymbolPair
  cases left with
  | none => exact Nat.le_succ _
  | some left =>
    cases right with
    | none => exact Nat.le_succ _
    | some right =>
      simp only
      split
      · exact Nat.le_succ _
      · cases sentencepiece.pieces_ _ with
        | none => exact Nat.le_succ _
        | some id => exact le_refl _

theorem Agrees.maybeAddNewSymbolPair
    (cuts : Cuts text count cut) {state : BpeState Score} {live : List Nat}
    {done : Nat → Nat → Prop} (agrees : Agrees sentencepiece text count cut state live done)
    {left right : Option Nat}
    (isPair :
      ∀ i j, left = some i → right = some j → ∃ before after, live = before ++ i :: j :: after) :
    Agrees sentencepiece text count cut
      (sentencepiece.maybeAddNewSymbolPair text state left right) live
      fun i j => done i j ∨ left = some i ∧ right = some j := by
  cases left with
  | none =>
    refine agrees.weaken ?_
    rintro before i j after - (isDone | ⟨impossible, -⟩)
    · exact isDone
    · nomatch impossible
  | some left =>
    cases right with
    | none =>
      refine agrees.weaken ?_
      rintro before i j after - (isDone | ⟨-, impossible⟩)
      · exact isDone
      · nomatch impossible
    | some right =>
      rcases isPair left right rfl rfl with ⟨before, after, isLive⟩
      have threads := agrees.threads
      rcases threads.pair_sizes cuts isLive with
        ⟨leftPiece, rightPiece, leftLess, rightLess⟩
      have total :
          cut right - cut left + (cut (after.headD count) - cut right) =
            cut (after.headD count) - cut left := by
        omega
      unfold Sentencepiece.maybeAddNewSymbolPair
      simp only [threads.thawed, Bool.or_self, Bool.false_eq_true, if_false,
        leftPiece, rightPiece, total]
      have inText : cut (after.headD count) ≤ text.length := by
        have bounds := threads.stop_bounds (isLive.trans (append_cons ..))
        exact cuts.le_length bounds.2
      have isSpan : View.bytes text
              { data := cut left
                size := cut (after.headD count) - cut left } =
            span text (cut left) (cut (after.headD count)) :=
        rfl
      rw [isSpan]
      have samePlace :
          ∀ {before' i j after'}, live = before' ++ i :: j :: after' →
            some left = some i → some right = some j → after' = after := by
        rintro before' i j after' isLive' sameLeft -
        cases sameLeft
        exact (List.cons.inj (threads.split_unique isLive' isLive).2).2
      cases isPiece : sentencepiece.pieces_ (span text (cut left) (cut (after.headD count))) with
      | none =>
        constructor
        · exact threads
        · exact agrees.sound
        · rintro before' i j after' isLive' (isDone | ⟨sameLeft, sameRight⟩) score isScore
          · exact agrees.complete before' i j after' isLive' isDone score isScore
          · rw [samePlace isLive' sameLeft sameRight,
              ← some.inj sameLeft, scoreOf, isPiece] at isScore
            nomatch isScore
        · exact agrees.remembers
      | some id =>
        have isScore : sentencepiece.scoreOf (span text (cut left) (cut (after.headD count))) =
              some (sentencepiece.get_score id) := by
          rw [scoreOf, isPiece, map_some]
        constructor
        · exact threads
        · intro entry member
          rcases mem_cons.mp member with rfl | old
          · constructor
            · exact (threads.noneBetween isLive).1
            · exact (threads.noneBetween isLive).2
            · show sentencepiece.scoreOf (span text (cut left)
                      (cut left + (cut (after.headD count) - cut left))) = _
              rw [Nat.add_sub_cancel' (by omega)]
              exact isScore
          · exact agrees.sound entry old
        · rintro before' i j after' isLive' (isDone | ⟨sameLeft, sameRight⟩) score isScore'
          · exact mem_cons_of_mem _
                (agrees.complete before' i j after' isLive' isDone score isScore')
          · have sameAfter := samePlace isLive' sameLeft sameRight
            cases sameLeft
            cases sameRight
            rw [sameAfter] at isScore' ⊢
            rw [isScore] at isScore'
            rw [← some.inj isScore']
            exact mem_cons_self
        · simp only
          by_cases isUnused : sentencepiece.is_unused id = true
          · rw [if_pos isUnused]
            intro w first second isParts
            by_cases here : w = span text (cut left) (cut (after.headD count))
            · subst here
              rw [update_self] at isParts
              rcases Prod.mk.inj (some.inj isParts) with ⟨rfl, rfl⟩
              refine ⟨?_, ?_, ?_, id, isPiece, isUnused⟩
              · exact span_append text (le_of_lt leftLess) (le_of_lt rightLess)
              · exact span_ne_nil leftLess (le_trans (le_of_lt rightLess) inText)
              · exact span_ne_nil rightLess inText
            · rw [update_of_ne here] at isParts
              exact agrees.remembers w first second isParts
          · rw [if_neg isUnused]
            exact agrees.remembers

/-! ## Merging -/

section Replacement

variable {symbols : Nat → Symbol} {top : SymbolPair Score} {next : Option Nat}

theorem replaceSymbols_left (apart : top.left ≠ top.right)
    (isNext : (symbols top.right).next = next) (notNext : next ≠ some top.left) :
    replaceSymbols symbols top top.left =
      { symbols top.left with
        piece :=
          { data := (symbols top.left).piece.data
            size := (symbols top.left).piece.size + (symbols top.right).piece.size }
        next := next } := by
  subst isNext
  unfold replaceSymbols
  simp only
  rw [update_of_ne apart]
  cases isNext : (symbols top.right).next with
  | none =>
    simp only
    rw [update_self]
  | some next =>
    simp only
    have different : top.left ≠ next := by
      rintro rfl
      exact notNext isNext
    rw [update_of_ne different, update_self]

theorem replaceSymbols_right :
    (replaceSymbols symbols top top.right).piece = { data := 0, size := 0 } := by
  unfold replaceSymbols
  simp only
  rw [update_self]

theorem replaceSymbols_freeze (i : Nat) :
    (replaceSymbols symbols top i).freeze = (symbols i).freeze := by
  unfold replaceSymbols
  cases isNext : (symbols top.right).next with
  | none =>
    simp only [update_apply]
    split <;> split <;> simp_all
  | some next =>
    simp only [update_apply]
    split <;> split <;> split <;> simp_all

theorem replaceSymbols_other (notLeft : i ≠ top.left) (notRight : i ≠ top.right) :
    replaceSymbols symbols top i =
      if (symbols top.right).next = some i then
        { symbols i with prev := some top.left }
      else
        symbols i := by
  unfold replaceSymbols
  simp only
  rw [update_of_ne notRight]
  cases isNext : (symbols top.right).next with
  | none =>
    simp only
    rw [update_of_ne notLeft, if_neg (some_ne_none i).symm]
  | some next =>
    simp only
    by_cases here : i = next
    · subst here
      rw [update_self, if_pos rfl, update_of_ne notLeft]
    · have different : ¬some next = some i := fun same => here (some.inj same).symm
      rw [update_of_ne here, if_neg different, update_of_ne notLeft]

end Replacement

variable {top : SymbolPair Score}

/-- The right symbol of an adjacent pair is merged into the left. -/
theorem Threads.replaced {before after : List Nat}
    (threads : Threads count cut symbols (before ++ top.left :: top.right :: after))
    (cuts : Cuts text count cut) :
    Threads count cut (replaceSymbols symbols top) (before ++ top.left :: after) := by
  have distinct := threads.nodup
  have isRight :
      before ++ top.left :: top.right :: after = (before ++ [top.left]) ++ top.right :: after :=
    append_cons ..
  have rightNext : (symbols top.right).next = after.head? := by
    have linked := threads.linked
    rw [isRight] at linked
    have next := linked.right_eq
    rwa [or_none] at next
  have apart : top.left ≠ top.right := ne_of_lt (threads.noneBetween rfl).1
  rw [nodup_append, nodup_cons, nodup_cons] at distinct
  rcases distinct with ⟨-, ⟨notLeft, notRight, -⟩, disjoint⟩
  rw [mem_cons, not_or] at notLeft
  have notNext : after.head? ≠ some top.left := fun isHead =>
    notLeft.2 (mem_of_mem_head? isHead)
  have isLeft := replaceSymbols_left apart rightNext notNext
  have isOther :
      ∀ i ∈ before ++ top.left :: after, i ≠ top.left → replaceSymbols symbols top i =
          if after.head? = some i then
            { symbols i with prev := some top.left }
          else
            symbols i := by
    intro i member different
    rw [← rightNext]
    refine replaceSymbols_other different ?_
    rintro rfl
    rcases mem_append.mp member with inBefore | inRest
    · exact disjoint top.right inBefore top.right (by simp) rfl
    · rcases mem_cons.mp inRest with same | inAfter
      · exact different same
      · exact notRight inAfter
  have kept :
      ∀ i ∈ before ++ top.left :: after, i ≠ top.left →
        (replaceSymbols symbols top i).next = (symbols i).next ∧
          (replaceSymbols symbols top i).piece = (symbols i).piece := by
    intro i member different
    rw [isOther i member different]
    split
    · exact ⟨rfl, rfl⟩
    · exact ⟨rfl, rfl⟩
  constructor
  · refine threads.sorted.sublist ?_
    exact ((sublist_cons_self ..).cons_cons _).append_left before
  · intro i member
    apply threads.bounded i
    rcases mem_append.mp member with inBefore | inRest
    · simp [inBefore]
    · rcases mem_cons.mp inRest with rfl | inAfter
      · simp
      · simp [inAfter]
  · apply threads.linked.remove threads.nodup
    · rw [isLeft, or_none]
    · intro head isHead
      have inAfter := mem_of_mem_head? isHead
      have different : head ≠ top.left := by
        rintro rfl
        exact notLeft.2 inAfter
      rw [isOther head (by simp [inAfter]) different, if_pos isHead]
    · intro other member different
      exact (kept other member different).1
    · intro other member notHead
      by_cases here : other = top.left
      · rw [here, isLeft]
      · rw [isOther other member here, if_neg notHead]
  · intro i
    rw [replaceSymbols_freeze]
    exact threads.thawed i
  · intro before' i after' isLive
    rcases split_cases isLive with
      ⟨between, isBefore, isAfter⟩ | ⟨-, rfl, rfl⟩ | ⟨between, isBefore, isAfter⟩
    · have different : i ≠ top.left := disjoint i (by simp [isBefore]) top.left mem_cons_self
      rw [(kept i (by simp [isBefore]) different).2,
        threads.piece before' i (between ++ top.left :: top.right :: after) (by simp [isBefore])]
      subst isAfter
      cases between with
      | nil => rfl
      | cons first rest => rfl
    · rw [isLeft]
      rcases threads.pair_sizes cuts rfl with
        ⟨leftPiece, rightPiece, leftLess, rightLess⟩
      simp only [leftPiece, rightPiece, View.mk.injEq, true_and]
      omega
    · have member : i ∈ after := by
        simp [isAfter]
      have different : i ≠ top.left := by
        rintro rfl
        exact notLeft.2 member
      rw [(kept i (by simp [member]) different).2]
      refine threads.piece (before ++ top.left :: top.right :: between) i after' ?_
      simp [isAfter]
  · intro i notLive
    by_cases here : i = top.right
    · rw [here, replaceSymbols_right]
    · have different : i ≠ top.left := by
        rintro rfl
        exact notLive (by simp)
      have wasNotLive : i ∉ before ++ top.left :: top.right :: after := by
        simp only [mem_append, mem_cons, not_or] at notLive ⊢
        exact ⟨notLive.1, notLive.2.1, here, notLive.2.2⟩
      have samePiece : (replaceSymbols symbols top i).piece = (symbols i).piece := by
        rw [replaceSymbols_other different here]
        split
        · rfl
        · rfl
      rw [samePiece]
      exact threads.dead i wasNotLive

theorem Sound.available (cuts : Cuts text count cut) {state : BpeState Score} {live : List Nat}
    (threads : Threads count cut state.symbols live) (sound : Sound sentencepiece text cut live top)
    (available : ¬unavailable state.symbols top) :
    ∃ before after, live = before ++ top.left :: top.right :: after ∧
      top.size = cut (after.headD count) - cut top.left ∧
      sentencepiece.scoreOf (span text (cut top.left) (cut (after.headD count))) =
        some top.score := by
  simp only [unavailable, not_or, not_not] at available
  rcases available with ⟨leftSome, rightSome, sizes⟩
  have leftLive : top.left ∈ live := by
    by_contra notLive
    exact leftSome (threads.dead top.left notLive)
  have rightLive : top.right ∈ live := by
    by_contra notLive
    exact rightSome (threads.dead top.right notLive)
  rcases threads.adjacent leftLive rightLive sound.order sound.noneBetween with
    ⟨before, after, isLive⟩
  rcases threads.pair_sizes cuts isLive with
    ⟨leftPiece, rightPiece, leftLess, rightLess⟩
  rw [leftPiece, rightPiece] at sizes
  have size : top.size = cut (after.headD count) - cut top.left := by
    rw [← sizes]
    show cut top.right - cut top.left + (cut (after.headD count) - cut top.right) = _
    omega
  refine ⟨before, after, isLive, size, ?_⟩
  have score := sound.score
  rw [size, Nat.add_sub_cancel' (by omega)] at score
  exact score

/-- An entry for two adjacent symbols with their sizes is available. -/
theorem Threads.available_of_adjacent (cuts : Cuts text count cut) {live : List Nat}
    (threads : Threads count cut symbols live) {before after : List Nat} {entry : SymbolPair Score}
    (isLive : live = before ++ entry.left :: entry.right :: after)
    (size : entry.size = cut (after.headD count) - cut entry.left) :
    ¬unavailable symbols entry := by
  rcases threads.pair_sizes cuts isLive with
    ⟨leftPiece, rightPiece, leftLess, rightLess⟩
  simp only [unavailable, not_or, not_not, leftPiece, rightPiece, size]
  omega

/-- All pairs were looked up. -/
def All (_ _ : Nat) : Prop := True

variable {rest : List (SymbolPair Score)}

/-- One rule is applied, and the pairs of the new symbol are looked up. -/
theorem Agrees.mergeTop (cuts : Cuts text count cut) {state : BpeState Score}
    {before after : List Nat}
    (agrees : Agrees sentencepiece text count cut state
        (before ++ top.left :: top.right :: after) All) (perm : state.agenda.Perm (top :: rest)) :
    Agrees sentencepiece text count cut
      (sentencepiece.mergeTop text { state with agenda := rest } top)
      (before ++ top.left :: after) All := by
  have threads := agrees.threads.replaced cuts
  let symbols := replaceSymbols state.symbols top
  have isPrev : (symbols top.left).prev = before.getLast? := by
    have prev := threads.linked.left_eq
    rwa [or_none] at prev
  have isNext : (symbols top.left).next = after.head? := by
    have next := threads.linked.right_eq
    rwa [or_none] at next
  have replaced : Agrees sentencepiece text count cut
        { state with agenda := rest, symbols := symbols }
        (before ++ top.left :: after)
        fun i j => i ≠ top.left ∧ j ≠ top.left := by
    constructor
    · exact threads
    · intro entry member
      have sound := agrees.sound entry (perm.mem_iff.mpr (mem_cons_of_mem _ member))
      constructor
      · exact sound.order
      · intro k isLive
        apply sound.noneBetween k
        rcases mem_append.mp isLive with inBefore | inRest
        · exact mem_append_left _ inBefore
        · rcases mem_cons.mp inRest with rfl | inAfter
          · simp
          · simp [inAfter]
      · exact sound.score
    · rintro before' i j after' isLive ⟨notLeft, notLeft'⟩ score isScore
      have inRest :
          ∀ before'' after'', before ++ top.left :: top.right :: after =
                before'' ++ i :: j :: after'' →
              after''.headD count = after'.headD count →
                { left := i
                  right := j
                  score := score
                  size := cut (after'.headD count) - cut i } ∈ rest := by
        intro before'' after'' wasLive sameStop
        rw [← sameStop] at isScore ⊢
        have member := agrees.complete before'' i j after'' wasLive trivial score isScore
        rcases mem_cons.mp (perm.mem_iff.mp member) with isTop | inRest
        · exact absurd (congrArg SymbolPair.left isTop) notLeft
        · exact inRest
      rcases split_cases isLive with
        ⟨between, isBefore, isRest⟩ | ⟨-, same, -⟩ | ⟨between, isBefore, isAfter⟩
      · cases between with
        | nil => exact absurd (List.cons.inj isRest).1 notLeft'
        | cons first between =>
          rcases List.cons.inj isRest with ⟨rfl, rfl⟩
          apply inRest before' (between ++ top.left :: top.right :: after)
          · simp [isBefore]
          · cases between with
            | nil => rfl
            | cons first rest => rfl
      · exact absurd same notLeft
      · refine inRest (before ++ top.left :: top.right :: between) after' ?_ rfl
        rw [isAfter]
        simp
    · exact agrees.remembers
  have first := @Agrees.maybeAddNewSymbolPair _ _ _ _ _ cuts _ _ _ replaced
      (symbols top.left).prev (some top.left) (by
        rintro i j isPrev' ⟨⟩
        rw [isPrev, getLast?_eq_some_iff] at isPrev'
        rcases isPrev' with ⟨front, rfl⟩
        exact ⟨front, after, by simp⟩)
  have second := @Agrees.maybeAddNewSymbolPair _ _ _ _ _ cuts _ _ _ first
      (some top.left) (symbols top.left).next (by
        rintro i j ⟨⟩ isNext'
        rw [isNext, head?_eq_some_iff] at isNext'
        rcases isNext' with ⟨back, rfl⟩
        exact ⟨before, back, rfl⟩)
  have isMerge :
      sentencepiece.mergeTop text { state with agenda := rest } top =
        sentencepiece.maybeAddNewSymbolPair text (sentencepiece.maybeAddNewSymbolPair text
            { state with agenda := rest, symbols := symbols }
            (symbols top.left).prev (some top.left))
          (some top.left) (symbols top.left).next := by
    unfold Sentencepiece.mergeTop
    simp only [maybeAddNewSymbolPair_symbols]
    rfl
  rw [isMerge]
  refine second.weaken ?_
  intro before' i j after' isLive _
  have linked := threads.linked
  rw [isLive] at linked
  by_cases isRight : j = top.left
  · subst isRight
    have prev := linked
    rw [append_cons] at prev
    have isI := prev.left_eq
    rw [getLast?_append, getLast?_singleton] at isI
    exact Or.inl (Or.inr ⟨isI, rfl⟩)
  · by_cases isLeft : i = top.left
    · subst isLeft
      have isJ := linked.right_eq
      exact Or.inr ⟨rfl, isJ⟩
    · exact Or.inl (Or.inl ⟨isLeft, isRight⟩)

theorem contents_split {live : List Nat} {before after : List (List Byte)} {left right : List Byte}
    (isContents : contents text cut stop live = before ++ left :: right :: after) :
    ∃ before' i j after', live = before' ++ i :: j :: after' ∧
      before'.length = before.length ∧ left = span text (cut i) (cut j) ∧
      right = span text (cut j) (cut (after'.headD stop)) := by
  induction before generalizing live with
  | nil =>
    cases live with
    | nil => nomatch isContents
    | cons i rest =>
      rcases List.cons.inj isContents with ⟨isLeft, isRest⟩
      cases rest with
      | nil => nomatch isRest
      | cons j rest =>
        have isRight := (List.cons.inj isRest).1
        exact ⟨[], i, j, rest, rfl, rfl, isLeft.symm, isRight.symm⟩
  | cons first before ih =>
    cases live with
    | nil => nomatch isContents
    | cons k rest =>
      rcases ih (List.cons.inj isContents).2 with
        ⟨before', i, j, after', isLive, length, isLeft, isRight⟩
      refine ⟨k :: before', i, j, after', ?_, ?_, isLeft, isRight⟩
      · rw [isLive, cons_append]
      · rw [length_cons, length_cons, length]

theorem contents_pair (text : List Byte) (cut : Nat → Nat) (stop : Nat) (before : List Nat)
    (left right : Nat) (after : List Nat) :
    contents text cut stop (before ++ left :: right :: after) = contents text cut left before ++
        span text (cut left) (cut right) ::
          span text (cut right) (cut (after.headD stop)) :: contents text cut stop after := by
  rw [contents_append, contents, contents]
  rfl

theorem Agrees.drop (cuts : Cuts text count cut) {state : BpeState Score} {live : List Nat}
    (agrees : Agrees sentencepiece text count cut state live All)
    (perm : state.agenda.Perm (top :: rest)) (isUnavailable : unavailable state.symbols top) :
    Agrees sentencepiece text count cut { state with agenda := rest } live
      All := by
  constructor
  · exact agrees.threads
  · intro entry member
    exact agrees.sound entry (perm.mem_iff.mpr (mem_cons_of_mem _ member))
  · intro before i j after isLive isDone score isScore
    have member := agrees.complete before i j after isLive isDone score isScore
    rcases mem_cons.mp (perm.mem_iff.mp member) with isTop | inRest
    · rw [← isTop] at isUnavailable
      exact absurd isUnavailable (agrees.threads.available_of_adjacent cuts isLive rfl)
    · exact inRest
  · exact agrees.remembers

theorem mergeTop_length (state : BpeState Score) (top : SymbolPair Score) :
    (sentencepiece.mergeTop text state top).agenda.length ≤ state.agenda.length + 2 := by
  unfold Sentencepiece.mergeTop
  simp only
  refine (maybeAddNewSymbolPair_length _ _ _).trans ?_
  exact Nat.succ_le_succ (maybeAddNewSymbolPair_length _ _ _)

section Ordered

variable [LinearOrder Score]

theorem Agrees.isBest (cuts : Cuts text count cut) {state : BpeState Score}
    {before after : List Nat}
    (agrees : Agrees sentencepiece text count cut state
        (before ++ top.left :: top.right :: after) All) (perm : state.agenda.Perm (top :: rest))
    (greatest : ∀ other ∈ rest, ¬top.Less other)
    (isScore : sentencepiece.scoreOf (span text (cut top.left) (cut (after.headD count))) =
        some top.score) :
    IsBest sentencepiece.scoreOf (contents text cut top.left before)
      (span text (cut top.left) (cut top.right))
      (span text (cut top.right) (cut (after.headD count)))
      (contents text cut count after) top.score := by
  have threads := agrees.threads
  have joined :
      ∀ {before' i j after'}, before ++ top.left :: top.right :: after =
            before' ++ i :: j :: after' →
          span text (cut i) (cut j) ++ span text (cut j) (cut (after'.headD count)) =
            span text (cut i) (cut (after'.headD count)) := by
    intro before' i j after' isLive
    rcases threads.pair_sizes cuts isLive with ⟨-, -, leftLess, rightLess⟩
    exact span_append text (le_of_lt leftLess) (le_of_lt rightLess)
  constructor
  · rw [joined rfl]
    exact isScore
  · intro before' left right after' score same isScore'
    rw [← contents_pair] at same
    rcases contents_split same with
      ⟨front, i, j, back, isLive, length, rfl, rfl⟩
    rw [joined isLive] at isScore'
    have entry := agrees.complete front i j back isLive trivial score isScore'
    rw [length_contents, ← length]
    rcases mem_cons.mp (perm.mem_iff.mp entry) with isTop | inRest
    · have sameLeft : i = top.left := congrArg SymbolPair.left isTop
      have sameScore : score = top.score := congrArg SymbolPair.score isTop
      subst sameLeft
      rw [(threads.split_unique rfl isLive).1]
      exact Or.inr ⟨sameScore, le_refl _⟩
    · have notLess := greatest _ inRest
      simp only [SymbolPair.Less, not_or, not_and, not_lt] at notLess
      rcases lt_or_eq_of_le notLess.1 with worse | sameScore
      · exact Or.inl worse
      · right
        refine ⟨sameScore, ?_⟩
        have inOrder := notLess.2 sameScore.symm
        rcases split_cases isLive with
          ⟨between, isBefore, -⟩ | ⟨sameFront, -, -⟩ | ⟨between, isFront, -⟩
        · have sorted := (pairwise_append.mp threads.sorted).2.2
          have less := sorted i (by simp [isBefore]) top.left mem_cons_self
          exact absurd inOrder (Nat.not_le_of_lt less)
        · rw [sameFront]
        · rw [isFront, length_append]
          exact Nat.le_add_right ..

theorem mainLoop_merges (cuts : Cuts text count cut)
    (queue : PriorityQueue (SymbolPair Score) SymbolPair.Less) {fuel : Nat}
    {state : BpeState Score} {live : List Nat}
    (agrees : Agrees sentencepiece text count cut state live All)
    (enough : state.agenda.length + 3 * live.length < fuel) :
    ∃ final live', mainLoop sentencepiece queue text fuel state = some final ∧
      Agrees sentencepiece text count cut final live' All ∧
      live'.head? = live.head? ∧
      Merges sentencepiece.scoreOf (contents text cut count live)
        (contents text cut count live') := by
  induction fuel generalizing state live with
  | zero => cases enough
  | succ fuel ih =>
    unfold mainLoop
    cases isTop : queue.pop state.agenda with
    | none =>
      refine ⟨state, live, rfl, agrees, rfl, ?_⟩
      have empty := queue.pop_none _ isTop
      apply Merges.done
      intro before left right after isContents
      rcases contents_split isContents with
        ⟨front, i, j, back, isLive, -, rfl, rfl⟩
      rcases agrees.threads.pair_sizes cuts isLive with
        ⟨-, -, leftLess, rightLess⟩
      rw [span_append text (le_of_lt leftLess) (le_of_lt rightLess)]
      cases isScore : sentencepiece.scoreOf (span text (cut i) (cut (back.headD count))) with
      | none => rfl
      | some score =>
        have member := agrees.complete front i j back isLive trivial score isScore
        rw [empty] at member
        nomatch member
    | some pair =>
      rcases pair with ⟨top, rest⟩
      have perm := queue.pop_perm _ top rest isTop
      have length := perm.length_eq
      rw [length_cons] at length
      simp only
      by_cases isUnavailable : unavailable state.symbols top
      · rw [if_pos isUnavailable]
        apply ih (agrees.drop cuts perm isUnavailable)
        show rest.length + 3 * live.length < fuel
        omega
      · rw [if_neg isUnavailable]
        have sound := agrees.sound top (perm.mem_iff.mpr mem_cons_self)
        rcases sound.available cuts agrees.threads isUnavailable with
          ⟨before, after, rfl, -, isScore⟩
        have merged := agrees.mergeTop cuts perm
        have lengths : (sentencepiece.mergeTop text { state with agenda := rest }
                top).agenda.length ≤ rest.length + 2 :=
          mergeTop_length _ top
        rw [length_append, length_cons, length_cons] at enough
        have fewer : (sentencepiece.mergeTop text { state with agenda := rest } top).agenda.length +
                3 * (before ++ top.left :: after).length < fuel := by
          rw [length_append, length_cons]
          omega
        rcases ih merged fewer with
          ⟨final, live', isFinal, agreesFinal, sameHead, merges⟩
        refine ⟨final, live', isFinal, agreesFinal, ?_, ?_⟩
        · rw [sameHead]
          cases before with
          | nil => rfl
          | cons first before => rfl
        · have best := agrees.isBest cuts perm (queue.pop_greatest _ top rest isTop) isScore
          rcases agrees.threads.pair_sizes cuts rfl with
            ⟨-, -, leftLess, rightLess⟩
          have joined := span_append text (le_of_lt leftLess) (le_of_lt rightLess)
          rw [contents_pair]
          refine Merges.merge best ?_
          rw [joined]
          rw [contents_append] at merges
          exact merges

end Ordered

end Sentencepiece

end Mnn.Llm
