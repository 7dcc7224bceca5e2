import Mnn.Llm.PatternParser

/-!
# The numbers of a pattern

A pattern is gone through from the front to the end, without going down into its
groups: only the depth of the brackets is counted.  This tells the numbers of the
quantifiers.  The parser comes to an end on every pattern, and it has a result if and
only if none of these numbers is too large for an `int`.
-/

variable {icase_ : Bool}

namespace Mnn.Regex

open Mnn.Foundation BitFields Utf8
open List
open Nat

/-! ## Going on -/

namespace Cursor

variable {pat : Text} (cursor : Cursor pat)

def left : Nat := pat.length - cursor.pos_

variable {cursor}

theorem at_end_iff : cursor.at_end = true ↔ pat.length ≤ cursor.pos_ := decide_eq_true_iff

theorem pos_next (less : cursor.pos_ < pat.length) : cursor.next.pos_ = cursor.pos_ + 1 := by
  rw [next, dif_pos less]

theorem peek_of_at_end (atEnd : ¬cursor.pos_ < pat.length) : cursor.peek = 0 := dif_neg atEnd

variable (cursor)

theorem le_next : cursor.pos_ ≤ cursor.next.pos_ := by
  rw [next]
  split
  · exact le_succ _
  · exact le_refl _

theorem le_past (c : Byte) : cursor.pos_ ≤ (cursor.past c).pos_ := by
  rw [past]
  split
  · exact cursor.le_next
  · exact le_refl _

theorem le_readWhile (isOfKind : Byte → Bool) : cursor.pos_ ≤ (cursor.readWhile isOfKind).2.pos_ :=
  Nat.le_add_right ..

theorem le_read_cp : cursor.pos_ ≤ cursor.read_cp.2.pos_ := by
  rw [read_cp]
  split
  · exact le_refl _
  · exact Nat.le_add_right ..

variable {cursor}

theorem lt_read_cp (less : cursor.pos_ < pat.length) : cursor.pos_ < cursor.read_cp.2.pos_ := by
  have some : cursor.rest ≠ [] := by
    intro none
    have length := cursor.length_rest
    rw [none, length_nil] at length
    omega
  rw [read_cp, dif_neg some]
  exact Nat.lt_add_of_pos_right (utf8_decode_pos _)

theorem lt_of_le_next {last : Nat} (less : cursor.pos_ < pat.length)
    (le : cursor.next.pos_ ≤ last) : cursor.pos_ < last := by
  rw [pos_next less] at le
  exact le

end Cursor

section Places

variable {pat : Text}

theorem lt_escape (icase_ : Bool) (cs : CharSet) {cursor : Cursor pat}
    (less : cursor.pos_ < pat.length) :
    cursor.pos_ < (add_escape_to_cs icase_ cs cursor).cursor.pos_ := by
  refine Cursor.lt_of_le_next less (le_trans cursor.next.le_next ?_)
  rw [add_escape_to_cs]
  dsimp only
  generalize cursor.next.next = place
  split
  · split
    · exact le_trans place.le_next
        (le_trans (place.next.le_readWhile _) (Cursor.le_past _ _))
    · exact le_refl _
  · split
    · split
      · exact le_trans place.le_next place.next.le_next
      · exact le_refl _
    · split
      · exact le_refl _
      · exact le_refl _

/-- Where an escape ends does not depend on the letters that are folded. -/
theorem escape_cursor (icase_ icase_' : Bool) (cs cs' : CharSet) (cursor : Cursor pat) :
    (add_escape_to_cs icase_ cs cursor).cursor = (add_escape_to_cs icase_' cs' cursor).cursor := by
  rw [add_escape_to_cs, add_escape_to_cs]
  dsimp only
  split
  · split
    · rfl
    · rfl
  · split
    · split
      · rfl
      · rfl
    · split
      · rfl
      · rfl

variable (get_category get_category' : Nat → Category)

theorem lt_classItem (icase_ : Bool) (cs : CharSet) {cursor : Cursor pat}
    (less : cursor.pos_ < pat.length) :
    cursor.pos_ < (classItem get_category icase_ cs cursor).2.pos_ := by
  rw [classItem]
  split
  · refine lt_of_lt_of_le (Cursor.lt_read_cp less) ?_
    dsimp only
    generalize cursor.read_cp.2 = place
    split
    · refine le_trans place.le_next ?_
      split
      · exact place.next.le_read_cp
      · exact place.next.le_next
    · exact le_refl _
  · refine Cursor.lt_of_le_next less ?_
    dsimp only
    generalize cursor.next = place
    split
    · refine le_trans place.le_next ?_
      split
      · exact le_trans place.next.le_next place.next.next.le_next
      · split
        · exact place.next.le_read_cp
        · exact place.next.le_next
    · exact le_refl _

theorem classItem_cursor (icase_ icase_' : Bool) (cs cs' : CharSet) (cursor : Cursor pat) :
    (classItem get_category icase_ cs cursor).2 =
      (classItem get_category' icase_' cs' cursor).2 := by
  rw [classItem, classItem]
  dsimp only
  split
  · split
    · rfl
    · rfl
  · split
    · split
      · rfl
      · split
        · rfl
        · rfl
    · rfl

theorem classLoop_ok (icase_ : Bool) {fuel : Nat} (cs : CharSet) (supported_ : Bool)
    {cursor : Cursor pat} (enough : cursor.left < fuel) :
    ∃ read, classLoop get_category icase_ fuel cs supported_ cursor = .ok read ∧
      cursor.pos_ ≤ read.cursor.pos_ := by
  induction fuel generalizing cs supported_ cursor with
  | zero => cases enough
  | succ fuel ih =>
    rw [classLoop]
    split
    · exact ⟨_, rfl, le_refl _⟩
    · rename_i goesOn
      have less : cursor.pos_ < pat.length := by
        rw [not_or, Cursor.at_end_iff] at goesOn
        exact Nat.lt_of_not_le goesOn.1
      rw [Cursor.left] at enough
      split
      · have behind := lt_escape icase_ cs less
        obtain ⟨read, isRead, le⟩ := @ih (add_escape_to_cs icase_ cs cursor).value
          (supported_ && (add_escape_to_cs icase_ cs cursor).supported_)
          (add_escape_to_cs icase_ cs cursor).cursor (by
            rw [Cursor.left]
            omega)
        exact ⟨read, isRead, le_trans (le_of_lt behind) le⟩
      · have behind := lt_classItem get_category icase_ cs less
        obtain ⟨read, isRead, le⟩ := @ih (classItem get_category icase_ cs cursor).1 supported_
          (classItem get_category icase_ cs cursor).2 (by
            rw [Cursor.left]
            omega)
        exact ⟨read, isRead, le_trans (le_of_lt behind) le⟩

theorem classLoop_cursor (icase_ icase_' : Bool) (fuel : Nat) (cs cs' : CharSet)
    (supported_ supported_' : Bool) (cursor : Cursor pat) :
    (classLoop get_category icase_ fuel cs supported_ cursor).map Parsed.cursor =
      (classLoop get_category' icase_' fuel cs' supported_' cursor).map Parsed.cursor := by
  induction fuel generalizing cs cs' supported_ supported_' cursor with
  | zero => rfl
  | succ fuel ih =>
    rw [classLoop, classLoop]
    split
    · rfl
    · split
      · dsimp only
        rw [escape_cursor icase_ icase_' cs cs']
        exact ih ..
      · dsimp only
        rw [classItem_cursor get_category get_category' icase_ icase_' cs cs']
        exact ih ..

theorem parse_class_ok (icase_ : Bool) {cursor : Cursor pat} (less : cursor.pos_ < pat.length) :
    ∃ read, parse_class get_category icase_ cursor = .ok read ∧ cursor.pos_ < read.cursor.pos_ := by
  obtain ⟨read, isRead, le⟩ := @classLoop_ok pat get_category icase_ (pat.length + 1)
    (if (cursor.next.past (chr '^')).peek = chr ']' then
      CharSet.empty.set (chr ']') else CharSet.empty) true
    ((cursor.next.past (chr '^')).past (chr ']'))
    (lt_succ_of_le (sub_le ..))
  rw [parse_class]
  rw [isRead]
  refine ⟨_, rfl, Cursor.lt_of_le_next less ?_⟩
  exact le_trans (cursor.next.le_past _) (le_trans (Cursor.le_past _ _)
    (le_trans le (Cursor.le_past _ _)))

theorem parse_class_cursor (icase_ icase_' : Bool) (cursor : Cursor pat) :
    (parse_class get_category icase_ cursor).map Parsed.cursor =
      (parse_class get_category' icase_' cursor).map Parsed.cursor := by
  rw [parse_class, parse_class]
  have same := classLoop_cursor get_category get_category' icase_ icase_' (pat.length + 1)
    (if (cursor.next.past (chr '^')).peek = chr ']' then
      CharSet.empty.set (chr ']') else CharSet.empty)
    (if (cursor.next.past (chr '^')).peek = chr ']' then
      CharSet.empty.set (chr ']') else CharSet.empty) true true
    ((cursor.next.past (chr '^')).past (chr ']'))
  generalize classLoop get_category icase_ _ _ _ _ = read at same
  generalize classLoop get_category' icase_' _ _ _ _ = read' at same
  cases read with
  | error fault =>
    cases read' with
    | error fault' => exact same
    | ok read' => nomatch same
  | ok read =>
    cases read' with
    | error fault' => nomatch same
    | ok read' =>
      have sameCursor : read.cursor = read'.cursor := Except.ok.inj same
      show Except.ok (read.cursor.past (chr ']')) = Except.ok (read'.cursor.past (chr ']'))
      rw [sameCursor]

end Places

/-! ## Numbers of quantifiers -/

section Numbers

variable {pat : Text}

/-- The numbers behind a brace, and the place behind the brace that closes. -/
def bracedNumbers (cursor : Cursor pat) : List Nat × Cursor pat :=
  let num := cursor.readWhile isDigit
  if num.2.peek = chr ',' then
    let num2 := num.2.next.readWhile isDigit
    ([decimal num.1, decimal num2.1], num2.2.past (chr '}'))
  else
    ([decimal num.1], num.2.past (chr '}'))

/-- The numbers of the quantifier that is here, if there is one. -/
def quantifierAt (cursor : Cursor pat) : List Nat × Cursor pat :=
  if cursor.at_end then
    ([], cursor)
  else if cursor.peek = chr '+' ∨ cursor.peek = chr '*' ∨ cursor.peek = chr '?' then
    ([], cursor.next.past (chr '?'))
  else if cursor.peek = chr '{' then
    let braced := bracedNumbers cursor.next
    (braced.1, braced.2.past (chr '?'))
  else
    ([], cursor)

theorem balanced_rest_le (cursor : Cursor pat) : balanced 1 cursor.rest ≤ cursor.rest.length :=
  balanced_le 1 _

/-- The place behind the front of a group, and whether the group is gone through. -/
def groupFront (cursor : Cursor pat) : Bool × Cursor pat :=
  let cursor := cursor.next
  if cursor.peek = chr '?' then
    let cursor := cursor.next
    if cursor.peek = chr '!' then
      (true, cursor.next)
    else if cursor.peek = chr '=' ∨ cursor.peek = chr '<' then
      (false, cursor.skip _ (balanced_rest_le cursor))
    else
      (true, (cursor.readWhile fun c => c != chr ':' && c != chr ')').2.past (chr ':'))
  else
    (true, cursor)

/-- The place behind a class, whatever the letters are folded to. -/
def classEnd (cursor : Cursor pat) : Cursor pat :=
  match parse_class (fun _ => .Cn) false cursor with
  | .ok read => read.cursor
  | .error _ => cursor

/-- The place behind an atom that is no group. -/
def atomEnd (cursor : Cursor pat) : Cursor pat :=
  if cursor.peek = chr '[' then classEnd cursor
  else if cursor.peek = 0x5C then (add_escape_to_cs false .empty cursor).cursor
  else if cursor.peek = chr '.' then cursor.next
  else if cursor.is_multibyte then cursor.read_cp.2
  else cursor.next

theorem le_quantifierAt (cursor : Cursor pat) : cursor.pos_ ≤ (quantifierAt cursor).2.pos_ := by
  rw [quantifierAt]
  split
  · exact le_refl _
  · split
    · exact le_trans cursor.le_next (Cursor.le_past _ _)
    · split
      · refine le_trans (le_trans cursor.le_next ?_) (Cursor.le_past _ _)
        rw [bracedNumbers]
        dsimp only
        refine le_trans (cursor.next.le_readWhile isDigit) ?_
        split
        · exact le_trans (Cursor.le_next _)
            (le_trans (Cursor.le_readWhile _ _) (Cursor.le_past _ _))
        · exact Cursor.le_past _ _
      · exact le_refl _

variable {cursor : Cursor pat}

theorem lt_groupFront (less : cursor.pos_ < pat.length) :
    cursor.pos_ < (groupFront cursor).2.pos_ := by
  refine Cursor.lt_of_le_next less ?_
  rw [groupFront]
  dsimp only
  split
  · refine le_trans cursor.next.le_next ?_
    split
    · exact Cursor.le_next _
    · split
      · exact Nat.le_add_right ..
      · exact le_trans (Cursor.le_readWhile _ _) (Cursor.le_past _ _)
  · exact le_refl _

theorem classEnd_of_parse_class {get_category : Nat → Category} {read : Parsed pat RNode}
    (isRead : parse_class get_category icase_ cursor = .ok read) :
    classEnd cursor = read.cursor := by
  have same := parse_class_cursor get_category (fun _ => .Cn) icase_ false cursor
  rw [isRead] at same
  rw [classEnd]
  cases isOther : parse_class (fun _ => .Cn) false cursor with
  | error fault =>
    rw [isOther] at same
    nomatch same
  | ok other =>
    rw [isOther] at same
    exact (Except.ok.inj same).symm

theorem lt_atomEnd (less : cursor.pos_ < pat.length) :
    cursor.pos_ < (atomEnd cursor).pos_ := by
  have lessNext := Cursor.lt_of_le_next less (le_refl _)
  rw [atomEnd]
  split
  · obtain ⟨read, isRead, behind⟩ := parse_class_ok (fun _ => .Cn) false less
    rw [classEnd_of_parse_class isRead]
    exact behind
  · split
    · exact lt_escape _ _ less
    · split
      · exact lessNext
      · split
        · exact Cursor.lt_read_cp less
        · exact lessNext

/-- The numbers of all quantifiers from here on, inside of so many groups. -/
def quantifierNumbers (depth : Nat) (cursor : Cursor pat) : List Nat :=
  if _less : cursor.pos_ < pat.length then
    if cursor.peek = chr '|' then
      quantifierNumbers depth cursor.next
    else if cursor.peek = chr ')' then
      -- nothing is read behind a bracket that closes no group
      if depth = 0 then
        []
      else
        (quantifierAt cursor.next).1 ++ quantifierNumbers (depth - 1) (quantifierAt cursor.next).2
    else if cursor.peek = chr '(' then
      if (groupFront cursor).1 then
        quantifierNumbers (depth + 1) (groupFront cursor).2
      else
        (quantifierAt (groupFront cursor).2).1 ++
          quantifierNumbers depth (quantifierAt (groupFront cursor).2).2
    else
      (quantifierAt (atomEnd cursor)).1 ++ quantifierNumbers depth (quantifierAt (atomEnd cursor)).2
  else
    []
termination_by cursor.left
decreasing_by
  all_goals
    have lessNext := Cursor.pos_next _less
    have lessFront := lt_groupFront _less
    have lessAtom := lt_atomEnd _less
    have behindNext := le_quantifierAt cursor.next
    have behindFront := le_quantifierAt (groupFront cursor).2
    have behindAtom := le_quantifierAt (atomEnd cursor)
    simp only [Cursor.left]
    omega

/-- The numbers behind an atom, which can have a quantifier. -/
def numbersBehind (depth : Nat) (cursor : Cursor pat) : List Nat :=
  (quantifierAt cursor).1 ++ quantifierNumbers depth (quantifierAt cursor).2

section

variable {depth : Nat} {cursor : Cursor pat}

theorem quantifierNumbers_end (atEnd : ¬cursor.pos_ < pat.length) : quantifierNumbers depth cursor = [] := by
  rw [quantifierNumbers, dif_neg atEnd]

section

variable (less : cursor.pos_ < pat.length)

include less

theorem quantifierNumbers_bar (bar : cursor.peek = chr '|') :
    quantifierNumbers depth cursor = quantifierNumbers depth cursor.next := by
  rw [quantifierNumbers, dif_pos less, if_pos bar]

theorem quantifierNumbers_close (close : cursor.peek = chr ')') :
    quantifierNumbers (depth + 1) cursor = numbersBehind depth cursor.next := by
  rw [quantifierNumbers, dif_pos less, close, if_neg (by decide), if_pos rfl,
    if_neg (succ_ne_zero depth)]
  rfl

theorem quantifierNumbers_open (opens : cursor.peek = chr '(') :
    quantifierNumbers depth cursor =
      if (groupFront cursor).1 then
        quantifierNumbers (depth + 1) (groupFront cursor).2
      else
        numbersBehind depth (groupFront cursor).2 := by
  rw [quantifierNumbers, dif_pos less, opens, if_neg (by decide), if_neg (by decide), if_pos rfl]
  rfl

theorem quantifierNumbers_atom (noBar : cursor.peek ≠ chr '|')
    (noClose : cursor.peek ≠ chr ')') (noOpen : cursor.peek ≠ chr '(') :
    quantifierNumbers depth cursor = numbersBehind depth (atomEnd cursor) := by
  rw [quantifierNumbers, dif_pos less, if_neg noBar, if_neg noClose, if_neg noOpen]
  rfl

end

end

end Numbers

/-! ## Runs that read numbers -/

section Reading

variable {α β : Type} {front : Nat → List Nat} {holds : α → Prop} {behind : α → Nat → List Nat}

/--
A run gets from some numbers to those behind it.  It has a result if the numbers in
between are small, and ends with `std::out_of_range` at one that is not.
-/
def Reads (front : Nat → List Nat) (holds : α → Prop) (behind : α → Nat → List Nat) :
    Except Fault α → Prop
  | .ok value =>
    holds value ∧ ∃ numbers, (∀ n ∈ numbers, n ≤ INT_MAX) ∧
      ∀ depth, front depth = numbers ++ behind value depth
  | .error fault =>
    fault = .out_of_range ∧ ∀ depth, ∃ n ∈ front depth, INT_MAX < n

theorem Reads.pure {value : α} (isHeld : holds value)
    (same : ∀ depth, front depth = behind value depth) :
    Reads front holds behind (pure value) :=
  ⟨isHeld, [], fun _ isIn => (not_mem_nil isIn).elim, same⟩

variable {result : Except Fault α}

theorem Reads.bind {holds' : β → Prop} {behind' : β → Nat → List Nat} {next : α → Except Fault β}
    (reads : Reads front holds behind result)
    (goesOn : ∀ value, holds value → Reads (behind value) holds' behind' (next value)) :
    Reads front holds' behind' (result >>= next) := by
  cases result with
  | error fault => exact reads
  | ok value =>
    obtain ⟨isHeld, numbers, small, isFront⟩ := reads
    have later := goesOn value isHeld
    show Reads front holds' behind' (next value)
    cases isNext : next value with
    | error fault =>
      rw [isNext] at later
      refine ⟨later.1, fun depth => ?_⟩
      obtain ⟨n, isIn, large⟩ := later.2 depth
      rw [isFront]
      exact ⟨n, mem_append_right _ isIn, large⟩
    | ok value' =>
      rw [isNext] at later
      obtain ⟨isHeld', numbers', small', isBehind⟩ := later
      refine ⟨isHeld', numbers ++ numbers', fun n isIn => ?_, fun depth => ?_⟩
      · rcases mem_append.mp isIn with isIn | isIn
        · exact small n isIn
        · exact small' n isIn
      · rw [isFront, isBehind, append_assoc]

theorem Reads.of_front {front' : Nat → List Nat} (reads : Reads front holds behind result)
    (same : ∀ depth, front' depth = front depth) :
    Reads front' holds behind result := by
  rw [funext same]
  exact reads

theorem Reads.deeper (reads : Reads front holds behind result) :
    Reads (fun depth => front (depth + 1)) holds
      (fun value depth => behind value (depth + 1)) result := by
  cases result with
  | error fault => exact ⟨reads.1, fun depth => reads.2 (depth + 1)⟩
  | ok value =>
    obtain ⟨isHeld, numbers, small, isFront⟩ := reads
    exact ⟨isHeld, numbers, small, fun depth => isFront (depth + 1)⟩

theorem Reads.outermost (reads : Reads front holds behind result) :
    Reads (fun _ => front 0) holds (fun value _ => behind value 0) result := by
  cases result with
  | error fault => exact ⟨reads.1, fun _ => reads.2 0⟩
  | ok value =>
    obtain ⟨isHeld, numbers, small, isFront⟩ := reads
    exact ⟨isHeld, numbers, small, fun _ => isFront 0⟩

theorem reads_digits {digits : Text} {next : Nat → α} {missing : α} (rest : Nat → List Nat) :
    Reads (fun depth => decimal digits :: rest depth) (fun _ => True) (fun _ => rest)
      (numberOr missing next digits) := by
  rw [numberOr]
  split
  · rename_i none
    rw [none]
    exact ⟨trivial, [0], by decide, fun _ => rfl⟩
  · rw [stoi]
    split
    · rename_i small
      exact ⟨trivial, [decimal digits], by simpa using small, fun _ => rfl⟩
    · rename_i large
      exact ⟨rfl, fun _ => ⟨_, mem_cons_self, Nat.lt_of_not_le large⟩⟩

end Reading

section Parser

variable (get_category : Nat → Category) {pat : Text}

theorem reads_pure_quantifier {read : RNode × Cursor pat} {cursor : Cursor pat}
    (isHere : quantifierAt cursor = ([], read.2)) :
    Reads (fun depth => numbersBehind depth cursor) (fun read => cursor.pos_ ≤ read.2.pos_)
      (fun read depth => quantifierNumbers depth read.2)
      (pure read : Except Fault (RNode × Cursor pat)) := by
  have place := le_quantifierAt cursor
  rw [isHere] at place
  refine .pure place fun depth => ?_
  rw [numbersBehind, isHere]
  rfl

theorem reads_parse_quantifier (node : RNode) (cursor : Cursor pat) :
    Reads (fun depth => numbersBehind depth cursor) (fun read => cursor.pos_ ≤ read.2.pos_)
      (fun read depth => quantifierNumbers depth read.2) (parse_quantifier node cursor) := by
  have isHere : quantifierAt cursor = quantifierAt cursor := rfl
  have place := le_quantifierAt cursor
  rw [parse_quantifier]
  conv at isHere => rhs; rw [quantifierAt]
  split
  · rename_i atEnd
    rw [if_pos atEnd] at isHere
    exact reads_pure_quantifier isHere
  rename_i notEnd
  rw [if_neg notEnd] at isHere
  split
  · rename_i plus
    rw [if_pos (.inl plus)] at isHere
    exact reads_pure_quantifier isHere
  rename_i noPlus
  split
  · rename_i star
    rw [if_pos (.inr (.inl star))] at isHere
    exact reads_pure_quantifier isHere
  rename_i noStar
  split
  · rename_i question
    rw [if_pos (.inr (.inr question))] at isHere
    exact reads_pure_quantifier isHere
  rename_i noQuestion
  rw [if_neg (fun any => any.elim noPlus (fun any => any.elim noStar noQuestion))] at isHere
  split
  · rename_i brace
    rw [if_pos brace, bracedNumbers] at isHere
    dsimp only at isHere ⊢
    split at isHere
    · rename_i comma
      rw [isHere] at place
      refine (Reads.bind (reads_digits fun depth =>
        decimal ((cursor.next.readWhile isDigit).2.next.readWhile isDigit).1 ::
          quantifierNumbers depth (quantifierAt cursor).2) fun qmin _ => ?_).of_front ?_
      · rw [if_pos comma]
        refine Reads.bind (reads_digits fun depth =>
          quantifierNumbers depth (quantifierAt cursor).2) fun qmax _ => ?_
        exact .pure place fun depth => by rw [isHere]
      · intro depth
        rw [numbersBehind, isHere]
        rfl
    · rename_i noComma
      rw [isHere] at place
      refine (Reads.bind (reads_digits fun depth =>
          quantifierNumbers depth (quantifierAt cursor).2) fun qmin _ => ?_).of_front ?_
      · rw [if_neg noComma]
        exact .pure place fun depth => by rw [isHere]
      · intro depth
        rw [numbersBehind, isHere]
        rfl
  · rename_i noBrace
    rw [if_neg noBrace] at isHere
    exact reads_pure_quantifier isHere

/-- Alternatives are read up to the end or to a bracket that closes. -/
def ReadsAlt (parse_alt : ParseAlt pat) (icase_ : Bool) (cursor : Cursor pat) : Prop :=
  Reads (fun depth => quantifierNumbers depth cursor) (fun alts => cursor.pos_ ≤ alts.cursor.pos_ ∧
      (alts.cursor.pos_ < pat.length → alts.cursor.peek = chr ')'))
    (fun alts depth => quantifierNumbers depth alts.cursor) (parse_alt icase_ cursor)

def ReadsAtom {α : Type} (cursor : Cursor pat) (result : Except Fault (Parsed pat α)) :
    Prop :=
  Reads (fun depth => quantifierNumbers depth cursor) (fun atom => cursor.pos_ < atom.cursor.pos_)
    (fun atom depth => numbersBehind depth atom.cursor) result

theorem numbersBehind_end {depth : Nat} {cursor : Cursor pat}
    (atEnd : ¬cursor.pos_ < pat.length) : numbersBehind depth cursor = [] := by
  rw [numbersBehind, quantifierAt, if_pos (Cursor.at_end_iff.mpr (Nat.le_of_not_lt atEnd))]
  exact quantifierNumbers_end atEnd

/-- The alternatives of a group, up to what is behind its bracket. -/
theorem reads_groupAlts {parse_alt : ParseAlt pat}
    {cursor inner : Cursor pat} (toNode : List (List RNode) → RNode)
    (less : cursor.pos_ < pat.length) (opens : cursor.peek = chr '(')
    (isInner : groupFront cursor = (true, inner))
    (reads : ReadsAlt parse_alt icase_ inner) :
    ReadsAtom cursor (do
      let alts ← parse_alt icase_ inner
      pure ⟨toNode alts.value, alts.supported_, alts.cursor.past (chr ')')⟩) := by
  have inside := lt_groupFront less
  rw [isInner] at inside
  refine (Reads.bind reads.deeper fun alts isHeld => ?_).of_front fun depth => ?_
  · refine .pure ?_ fun depth => ?_
    · exact lt_of_lt_of_le inside (le_trans isHeld.1 (Cursor.le_past _ _))
    · by_cases more : alts.cursor.pos_ < pat.length
      · rw [quantifierNumbers_close more (isHeld.2 more), Cursor.past, if_pos (isHeld.2 more)]
      · have stays : alts.cursor.past (chr ')') = alts.cursor := by
          rw [Cursor.past, Cursor.peek_of_at_end more, if_neg (by decide)]
        rw [quantifierNumbers_end more, stays, numbersBehind_end more]
  · rw [quantifierNumbers_open less opens, isInner, if_pos rfl]

theorem reads_parse_group {parse_alt : ParseAlt pat} {cursor : Cursor pat}
    (less : cursor.pos_ < pat.length) (opens : cursor.peek = chr '(')
    (reads : ∀ icase_ inner, cursor.pos_ < inner.pos_ → ReadsAlt parse_alt icase_ inner) :
    ReadsAtom cursor (parse_group icase_ parse_alt cursor) := by
  have isFront : groupFront cursor = groupFront cursor := rfl
  have inside := lt_groupFront less
  conv at isFront => rhs; rw [groupFront]
  rw [parse_group]
  dsimp only at isFront ⊢
  split
  · rename_i question
    rw [if_pos question] at isFront
    split
    · rename_i lookahead
      rw [if_pos lookahead] at isFront
      rw [isFront] at inside
      exact reads_groupAlts (.neg_la · 1 (some 1)) less opens isFront (reads _ _ inside)
    rename_i noLookahead
    rw [if_neg noLookahead] at isFront
    split
    · rename_i unsupported
      rw [if_pos unsupported] at isFront
      rw [isFront] at inside
      refine .pure inside fun depth => ?_
      rw [quantifierNumbers_open less opens, isFront, if_neg Bool.false_ne_true]
    · rename_i flags
      rw [if_neg flags] at isFront
      rw [isFront] at inside
      exact reads_groupAlts (.grp · 1 (some 1)) less opens isFront (reads _ _ inside)
  · rename_i plain
    rw [if_neg plain] at isFront
    rw [isFront] at inside
    exact reads_groupAlts (.grp · 1 (some 1)) less opens isFront (reads _ _ inside)

theorem reads_parse_atom {parse_alt : ParseAlt pat} {cursor : Cursor pat}
    (less : cursor.pos_ < pat.length) (noBar : cursor.peek ≠ chr '|')
    (noClose : cursor.peek ≠ chr ')')
    (reads : ∀ icase_ inner, cursor.pos_ < inner.pos_ → ReadsAlt parse_alt icase_ inner) :
    ReadsAtom cursor (parse_atom get_category icase_ parse_alt cursor) := by
  rw [parse_atom]
  dsimp only
  split
  · rename_i opens
    exact reads_parse_group less opens reads
  rename_i noOpen
  have numbers (depth : Nat) := @quantifierNumbers_atom pat depth cursor less noBar noClose noOpen
  have place := lt_atomEnd less
  have isEnd : atomEnd cursor = atomEnd cursor := rfl
  conv at isEnd => rhs; rw [atomEnd]
  split
  · rename_i isClass
    rw [if_pos isClass] at isEnd
    obtain ⟨read, isRead, behind⟩ := parse_class_ok get_category icase_ less
    rw [classEnd_of_parse_class isRead] at isEnd
    rw [isRead]
    exact Reads.pure behind fun depth => by rw [numbers, isEnd]
  rename_i noClass
  rw [if_neg noClass] at isEnd
  split
  · rename_i isEscape
    rw [if_pos isEscape, escape_cursor false icase_ .empty CharSet.empty] at isEnd
    rw [isEnd] at place
    exact .pure place fun depth => by rw [numbers, isEnd]
  rename_i noEscape
  rw [if_neg noEscape] at isEnd
  split
  · rename_i isDot
    rw [if_pos isDot] at isEnd
    rw [isEnd] at place
    exact .pure place fun depth => by rw [numbers, isEnd]
  rename_i noDot
  rw [if_neg noDot] at isEnd
  split
  · rename_i isWide
    rw [if_pos isWide] at isEnd
    rw [isEnd] at place
    exact .pure place fun depth => by rw [numbers, isEnd]
  · rename_i isNarrow
    rw [if_neg isNarrow] at isEnd
    rw [isEnd] at place
    exact .pure place fun depth => by rw [numbers, isEnd]

/-! ## Branches -/

def ReadsBranch (fuel : Nat) (icase_ : Bool) (cursor : Cursor pat) : Prop :=
  Reads (fun depth => quantifierNumbers depth cursor)
    (fun branch => cursor.pos_ ≤ branch.cursor.pos_ ∧ (branch.cursor.pos_ < pat.length →
        branch.cursor.peek = chr '|' ∨ branch.cursor.peek = chr ')'))
    (fun branch depth => quantifierNumbers depth branch.cursor)
    (parse_branch get_category fuel icase_ cursor)

theorem reads_branch_and_alt (fuel : Nat) :
    (∀ (icase_ : Bool) (cursor : Cursor pat), 2 * cursor.left + 1 ≤ fuel →
        ReadsBranch get_category fuel icase_ cursor) ∧
      ∀ (icase_ : Bool) (cursor : Cursor pat), 2 * cursor.left + 2 ≤ fuel →
        ReadsAlt (parse_alt get_category fuel) icase_ cursor := by
  induction fuel with
  | zero =>
    exact ⟨fun _ _ enough => absurd enough (not_succ_le_zero _),
      fun _ _ enough => absurd enough (not_succ_le_zero _)⟩
  | succ fuel ih =>
    obtain ⟨branches, alternatives⟩ := ih
    refine ⟨fun icase_ cursor enough => ?_, fun icase_ cursor enough => ?_⟩
    · rw [ReadsBranch, parse_branch]
      split
      · rename_i stops
        refine .pure ⟨le_refl _, fun less => ?_⟩ fun _ => rfl
        refine stops.resolve_left fun atEnd => ?_
        exact absurd less (Nat.not_lt_of_le (Cursor.at_end_iff.mp atEnd))
      · rename_i goesOn
        rw [not_or, not_or, Cursor.at_end_iff, not_le] at goesOn
        obtain ⟨less, noBar, noClose⟩ := goesOn
        rw [Cursor.left] at enough
        refine Reads.bind (reads_parse_atom get_category less noBar noClose
          fun icase_ inner behind => alternatives icase_ inner ?_) fun atom behind => ?_
        · rw [Cursor.left]
          have := inner.inside
          omega
        refine Reads.bind (reads_parse_quantifier atom.value atom.cursor) fun node behindNode => ?_
        refine Reads.bind (branches icase_ node.2 ?_) fun nodes isHeld => ?_
        · rw [Cursor.left]
          omega
        · refine .pure ⟨?_, isHeld.2⟩ fun _ => rfl
          exact le_trans (le_of_lt behind) (le_trans behindNode isHeld.1)
    · rw [ReadsAlt, parse_alt]
      refine Reads.bind (branches icase_ cursor (le_of_succ_le_succ enough))
        fun branch isHeld => ?_
      split
      · rename_i bar
        have more : branch.cursor.pos_ < pat.length := by
          refine Decidable.byContradiction fun atEnd => ?_
          rw [Cursor.peek_of_at_end atEnd] at bar
          exact absurd bar (by decide)
        have behindBar := Cursor.pos_next more
        rw [Cursor.left] at enough
        refine (Reads.bind (alternatives icase_ branch.cursor.next ?_)
          fun alts isHeld' => ?_).of_front fun depth => ?_
        · rw [Cursor.left]
          omega
        · refine .pure ⟨?_, isHeld'.2⟩ fun _ => rfl
          exact le_trans isHeld.1 (le_trans branch.cursor.le_next isHeld'.1)
        · exact quantifierNumbers_bar more bar
      · rename_i noBar
        exact .pure ⟨isHeld.1, fun more => (isHeld.2 more).resolve_left noBar⟩ fun _ => rfl

theorem reads_parseFrom {fuel : Nat} {cursor : Cursor pat} (enough : cursor.left < fuel) :
    Reads (fun _ => quantifierNumbers 0 cursor) (fun _ => True) (fun _ _ => [])
      (parseFrom get_category fuel cursor) := by
  induction fuel generalizing cursor with
  | zero => cases enough
  | succ fuel ih =>
    rw [parseFrom]
    refine Reads.bind ((reads_branch_and_alt get_category _).1 false cursor ?_).outermost
      fun branch isHeld => ?_
    · exact succ_le_succ (mul_le_mul_left 2 (sub_le ..))
    split
    · rename_i bar
      have more : branch.cursor.pos_ < pat.length := by
        refine Decidable.byContradiction fun atEnd => ?_
        rw [Cursor.peek_of_at_end atEnd] at bar
        exact absurd bar (by decide)
      have behindBar := Cursor.pos_next more
      rw [Cursor.left] at enough
      refine (Reads.bind (ih ?_) fun alts _ => ?_).of_front fun _ => ?_
      · rw [Cursor.left]
        omega
      · exact .pure trivial fun _ => rfl
      · exact quantifierNumbers_bar more bar
    · rename_i noBar
      refine .pure trivial fun _ => ?_
      by_cases more : branch.cursor.pos_ < pat.length
      · have close := (isHeld.2 more).resolve_left noBar
        rw [quantifierNumbers, dif_pos more, if_neg noBar, if_pos close, if_pos rfl]
      · exact quantifierNumbers_end more

theorem start_le (pattern : Text) : 0 ≤ pattern.length := zero_le _

/-- The numbers of the quantifiers of a pattern. -/
def numbersOf (pattern : Text) : List Nat :=
  quantifierNumbers 0 (⟨0, start_le pattern⟩ : Cursor pattern)

/-- The parser comes to an end, and no number is in its way if all are small. -/
theorem parse_iff (pattern : Text) :
    (∃ alts, parse get_category pattern = .ok alts) ↔ ∀ n ∈ numbersOf pattern, n ≤ INT_MAX := by
  have reads := @reads_parseFrom get_category pattern (pattern.length + 1)
    ⟨0, zero_le _⟩ (lt_succ_self _)
  rw [parse, numbersOf]
  generalize parseFrom get_category (pattern.length + 1) _ = result at reads ⊢
  cases result with
  | error fault =>
    obtain ⟨n, isIn, large⟩ := reads.2 0
    exact iff_of_false (fun ⟨_, isOk⟩ => nomatch isOk)
      fun small => absurd (small n isIn) (Nat.not_le_of_lt large)
  | ok alts =>
    obtain ⟨-, numbers, small, isFront⟩ := reads
    refine iff_of_true ⟨alts, rfl⟩ ?_
    have isNumbers : quantifierNumbers 0 (⟨0, zero_le _⟩ : Cursor pattern) =
        numbers ++ [] := isFront 0
    rw [isNumbers, append_nil]
    exact small

end Parser

end Mnn.Regex
