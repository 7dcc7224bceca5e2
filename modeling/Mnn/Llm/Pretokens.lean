import Mnn.Llm.RegexPieces

/-!
# When a text is cut into its pieces

A pattern that `std::wregex` is given cuts the text at its code points as well.  This
gives for every text and pattern when its pieces make it up.
-/

namespace Mnn.Regex.Unicode

open Mnn.Foundation BitFields Cutting Utf8
open List
open Nat

/-! ## Code points -/

variable (get_category : Nat → Category)

theorem wideFuel_fst (fuel i : Nat) (text : Text) :
    (wideFuel fuel i text).map Prod.fst = (foldTextFuel get_category fuel i text).map Prod.fst := by
  induction fuel generalizing i text with
  | zero => rfl
  | succ fuel ih =>
    cases text with
    | nil => rfl
    | cons c rest =>
      rw [foldTextFuel_cons, map_cons, ← ih]
      rfl

theorem wide_offsets (text : Text) :
    (utf8_to_wstring text).2 = byteOffsets get_category text := by
  rw [utf8_to_wstring, byteOffsets, wideFuel_fst get_category]

theorem length_wide (text : Text) :
    (utf8_to_wstring text).1.length = (fold_text get_category text).length := by
  have same := congrArg List.length (wideFuel_fst get_category text.length 0 text)
  rw [length_map, length_map] at same
  rw [utf8_to_wstring, fold_text, length_map, length_map, same]

section Pieces

variable {engine : Engine} {text : Text}

theorem offset_lt {i j : Nat} (less : i < j)
    (inside : j ≤ (fold_text engine.get_category text).length) :
    engine.offset text i < engine.offset text j := by
  have step := (offset_step engine (lt_of_lt_of_le less inside)).2
  have pos := utf8_decode_pos (text.drop (engine.offset text i))
  have le := (offsets_offset engine text).mono (i + 1) j less inside
  omega

/-- Code points one by one make up what is between two of them. -/
theorem singleLoop_ok {fuel i j : Nat} (le : i ≤ j)
    (inside : j ≤ (fold_text engine.get_category text).length) (enough : j - i < fuel) :
    ∃ pieces, singleLoop text (engine.offset text j) fuel (engine.offset text i) =
          .ok (pieces, engine.offset text j) ∧
        pieces.flatten = slice text (engine.offset text i) (engine.offset text j) := by
  induction fuel generalizing i with
  | zero => cases enough
  | succ fuel ih =>
    rw [singleLoop]
    rcases lt_or_eq_of_le le with less | rfl
    · have step := (offset_step engine (lt_of_lt_of_le less inside)).2
      have here := offset_le (le_trans le inside)
      have between := (offsets_offset engine text).mono (i + 1) j less inside
      obtain ⟨pieces, isPieces, flatten⟩ := ih less (by omega)
      rw [if_pos (offset_lt less inside), decodeAt_ok here]
      refine ⟨slice text (engine.offset text i) (engine.offset text (i + 1)) :: pieces, ?_, ?_⟩
      · show (substr _ _ _ >>= _ : Except Fault (List Text × Nat)) = _
        rw [substr_ok _ here]
        show (singleLoop _ _ _ (_ + _) >>= _ : Except Fault (List Text × Nat)) = _
        rw [← step, isPieces, slice, step, Nat.add_sub_cancel_left]
        rfl
      · rw [flatten_cons, flatten, slice_append (by omega) between]
    · rw [if_neg (lt_irrefl _)]
      exact ⟨[], rfl, (slice_self ..).symm⟩

/-- The matches and the code points between them make up the rest of the text. -/
theorem wregexPieces_ok {matches_ : List (Nat × Nat)} {prev : Nat}
    (ordered : MatchesFrom (fold_text engine.get_category text).length prev matches_) :
    ∃ pieces, wregexPieces text (matches_.map fun found =>
            (engine.offset text found.1, engine.offset text found.2))
          (engine.offset text prev) = .ok pieces ∧
        pieces.flatten = text.drop (engine.offset text prev) := by
  have few := length_fold_text_le engine.get_category text
  have offsets := offsets_offset engine text
  induction ordered with
  | @nil prev le =>
    obtain ⟨pieces, isPieces, flatten⟩ := @singleLoop_ok engine text (text.length + 1)
      prev _ le (le_refl _) (by omega)
    rw [offsets.last] at isPieces flatten
    refine ⟨pieces, ?_, ?_⟩
    · rw [map_nil, wregexPieces, isPieces]
      rfl
    · rw [flatten, slice, take_of_length_le (by rw [length_drop])]
  | @cons prev first last matches_ le le' others ih =>
    obtain ⟨others_, isOthers, flattenOthers⟩ := ih
    have leFirst := le_trans le' others.le
    obtain ⟨pieces, isPieces, flatten⟩ := @singleLoop_ok engine text (text.length + 1)
      prev first le leFirst (by omega)
    refine ⟨pieces ++ slice text (engine.offset text first) (engine.offset text last) ::
      others_, ?_, ?_⟩
    · rw [map_cons, wregexPieces, isPieces, isOthers]
      show (substr _ _ _ >>= _ : Except Fault (List Text)) = _
      rw [substr_ok _ (offset_le leFirst)]
      rfl
    · rw [flatten_append, flatten_cons, flatten, flattenOthers,
        slice_append_drop (offsets.mono _ _ le' others.le),
        slice_append_drop (offsets.mono _ _ le leFirst)]

theorem matchesFrom_map {size : Nat} {offset : Nat → Nat}
    (offsets : Offsets text size offset) {matches_ : List (Nat × Nat)} {prev : Nat}
    (ordered : MatchesFrom size prev matches_) :
    MatchesFrom text.length (offset prev)
      (matches_.map fun found => (offset found.1, offset found.2)) := by
  induction ordered with
  | nil le =>
    have least := offsets.mono _ _ le (le_refl _)
    rw [offsets.last] at least
    exact .nil least
  | cons le le' others ih =>
    exact .cons (offsets.mono _ _ le (le_trans le' others.le)) (offsets.mono _ _ le' others.le) ih

theorem offsets_id (text : Text) : Offsets text text.length id := ⟨rfl, rfl, fun _ _ le _ => le⟩

end Pieces

/-! ## Results -/

namespace Library

variable (lib : Library)

/-- An iterator goes on behind the match before, and stays inside of the text. -/
def Lawful : Prop :=
  ∀ pattern text found, lib.wsregex_iterator pattern text = some found →
    MatchesFrom text.length 0 (found.map fun m => (m.1, m.1 + m.2))

/-- The matches of a pattern in a text, by their offsets. -/
def matchesOf (text pattern : Text) : Except Fault (List (Nat × Nat)) :=
  if text = [] then
    pure []
  else if use_wregex pattern then
    lib.unicode_regex_find_all text pattern
  else do
    let branches ← get_compiled lib.get_category pattern
    let folded := fold_text lib.get_category text
    let matches_ ←
      matchLoop branches folded (toInt folded.length) (folded.length + 1) 0
    matches_.mapM fun found => do
      let first ← read (byteOffsets lib.get_category text) found.1
      let last ← read (byteOffsets lib.get_category text) found.2
      pure (first, last)

/-- The pattern is parsed, and the pieces make up the text or are what is unmatched. -/
structure Partitions (text pattern : Text) : Prop where
  parsed : ∃ alts, parse lib.get_category pattern = .ok alts
  scanned : ∃ pieces, lib.regex_scanner text pattern = .ok pieces ∧ pieces.flatten = text
  reassembled : ∀ behavior invert, Reassembles behavior →
    ∃ pieces, lib.regex_split text pattern invert behavior = .ok pieces ∧ pieces.flatten = text
  removed : ∃ matches_, lib.matchesOf text pattern = .ok matches_ ∧
    ∀ invert, lib.regex_split text pattern invert .removed =
      .ok (unmatchedPieces text invert matches_)

/-- No number is too large, and there is no exception for the text. -/
structure Accepts (text pattern : Text) : Prop where
  small : ∀ n ∈ numbersOf pattern, n ≤ INT_MAX
  accepted : text ≠ [] → use_wregex pattern = true →
    (lib.wsregex_iterator (utf8_to_wstring pattern).1 (utf8_to_wstring text).1).isSome
  fits : use_wregex pattern = false → (utf8_to_wstring text).1.length ≤ INT_MAX

theorem mapM_ok {α β : Type} {f : α → Except Fault β} {g : α → β} {xs : List α}
    (same : ∀ x ∈ xs, f x = .ok (g x)) : xs.mapM f = .ok (xs.map g) := by
  induction xs with
  | nil => rfl
  | cons x xs ih =>
    rw [mapM_cons, same x mem_cons_self, ih fun y isIn => same y (mem_cons_of_mem x isIn)]
    rfl

theorem toInt_of_le {size : Nat} (le : size ≤ INT_MAX) : toInt size = size := by
  rw [INT_MAX] at le
  rw [toInt, BitVec.toInt_eq_toNat_of_lt]
  · rw [BitVec.toNat_ofNat, mod_eq_of_lt (by omega)]
  · rw [BitVec.toNat_ofNat, mod_eq_of_lt (by omega)]
    omega

theorem toInt_le (size : Nat) : toInt size ≤ INT_MAX := by
  have less := (BitVec.ofNat 32 size).two_mul_toInt_lt
  rw [toInt, INT_MAX]
  omega

/-- The engine with these branches. -/
def engine (branches : List (List RNode)) : Engine :=
  ⟨lib.get_category, fun _ => branches, fun _ _ => []⟩

variable {lib} {text pattern : Text}

theorem MatchesFrom.le_of_mem {size prev : Nat} {matches_ : List (Nat × Nat)}
    (ordered : MatchesFrom size prev matches_) :
    ∀ found ∈ matches_, found.1 ≤ size ∧ found.2 ≤ size := by
  induction ordered with
  | nil le => exact fun _ isIn => (not_mem_nil isIn).elim
  | cons le le' others ih =>
    intro found isIn
    rcases mem_cons.mp isIn with rfl | isIn
    · exact ⟨le_trans le' others.le, others.le⟩
    · exact ih found isIn

theorem read_offset (branches : List (List RNode)) {i : Nat}
    (le : i ≤ (fold_text lib.get_category text).length) :
    read (byteOffsets lib.get_category text) i = .ok ((lib.engine branches).offset text i) :=
  @read_byteOffsets (lib.engine branches) text i le

theorem find_all_ok (branches : List (List RNode)) (lawful : lib.Lawful) {found : List (Nat × Nat)}
    (isFound : lib.wsregex_iterator (utf8_to_wstring pattern).1
      (utf8_to_wstring text).1 = some found) :
    ∃ matches_, MatchesFrom (fold_text lib.get_category text).length 0 matches_ ∧
        lib.unicode_regex_find_all text pattern = .ok (matches_.map fun m =>
            ((lib.engine branches).offset text m.1,
              (lib.engine branches).offset text m.2)) := by
  have ordered := lawful _ _ _ isFound
  rw [length_wide lib.get_category] at ordered
  refine ⟨_, ordered, ?_⟩
  rw [unicode_regex_find_all, wide_offsets lib.get_category]
  rw [isFound, map_map]
  refine mapM_ok fun m isIn => ?_
  obtain ⟨leFirst, leLast⟩ := MatchesFrom.le_of_mem ordered (m.1, m.1 + m.2)
    (mem_map.mpr ⟨m, isIn, rfl⟩)
  rw [read_offset branches leFirst, read_offset branches leLast]
  rfl

theorem partitions_wregex (lawful : lib.Lawful) (some : text ≠ [])
    (wide : use_wregex pattern = true) (parsed : ∃ alts, parse lib.get_category pattern = .ok alts)
    (accepted : (lib.wsregex_iterator (utf8_to_wstring pattern).1
      (utf8_to_wstring text).1).isSome) : lib.Partitions text pattern := by
  obtain ⟨found, isFound⟩ := Option.isSome_iff_exists.mp accepted
  obtain ⟨matches_, ordered, isAll⟩ := find_all_ok [] lawful isFound
  have offsets := offsets_offset (lib.engine []) text
  have inBytes := matchesFrom_map offsets ordered
  rw [offsets.first] at inBytes
  have isSplit (invert : Bool) (behavior : Mtok.SplitBehavior) :
      lib.regex_split text pattern invert behavior =
        .ok (Engine.apply_behavior (Engine.allSegments text id text.length
          (matches_.map fun m => ((lib.engine []).offset text m.1,
            (lib.engine []).offset text m.2))) invert behavior) := by
    rw [regex_split, if_neg some, wide, if_pos rfl, isAll]
    show (Unicode.allSegments text pure text.length _ >>= _ : Except Fault (List Text)) = _
    rw [@allSegments_ok text text.length pure id (offsets_id text) (fun _ _ => rfl) _ inBytes]
    rfl
  refine ⟨parsed, ?_, fun behavior invert reassembles => ?_, ?_⟩
  · obtain ⟨pieces, isPieces, flatten⟩ := @wregexPieces_ok (lib.engine []) text matches_ 0 ordered
    rw [offsets.first] at isPieces flatten
    refine ⟨pieces, ?_, flatten⟩
    rw [regex_scanner, if_neg some, wide, if_pos rfl, isAll]
    exact isPieces
  · refine ⟨_, isSplit invert behavior, ?_⟩
    rw [flatten_apply reassembles]
    exact flatten_allSegments (offsets_id text) inBytes
  · refine ⟨matches_.map fun m => ((lib.engine []).offset text m.1,
      (lib.engine []).offset text m.2), ?_, fun invert => ?_⟩
    · rw [matchesOf, if_neg some, wide, if_pos rfl]
      exact isAll
    · rw [isSplit, apply_removed (offsets_id text) inBytes, map_map]
      rfl

theorem partitions_in_house (some : text ≠ []) (inHouse : use_wregex pattern = false)
    (parsed : ∃ alts, parse lib.get_category pattern = .ok alts) {branches : List (List RNode)}
    (compiled : get_compiled lib.get_category pattern = .ok branches)
    (fits : (fold_text lib.get_category text).length ≤ INT_MAX) :
    lib.Partitions text pattern := by
  have isInt := toInt_of_le fits
  have isNat : (toInt (fold_text lib.get_category text).length).toNat =
      (fold_text lib.get_category text).length := by
    rw [isInt, Int.toNat_natCast]
  have offsets := offsets_offset (lib.engine branches) text
  have allFolded : (fold_text lib.get_category text).take
      (toInt (fold_text lib.get_category text).length).toNat = fold_text lib.get_category text := by
    rw [isNat, take_length]
  have scanned : scanLoop branches text (fold_text lib.get_category text)
      (byteOffsets lib.get_category text) (toInt (fold_text lib.get_category text).length)
      ((fold_text lib.get_category text).length + 1) 0 =
        .ok ((lib.engine branches).scanFuel pattern text ((fold_text lib.get_category text).take
            (toInt (fold_text lib.get_category text).length).toNat)
          (fold_text lib.get_category text).length 0) :=
    @scanLoop_ok (toInt (fold_text lib.get_category text).length) (lib.engine branches) text branches
    0 (fold_text lib.get_category text).length pattern (le_of_eq isNat) rfl (zero_le _)
    (by rw [isNat, zero_add])
  have matched := @matchLoop_ok (fold_text lib.get_category text)
    (toInt (fold_text lib.get_category text).length) (lib.engine branches) branches
    0 (fold_text lib.get_category text).length pattern (le_of_eq isNat) rfl (zero_le _)
    (by rw [isNat, zero_add])
  rw [allFolded] at matched
  have ordered := @matchesFrom_matchesFuel (lib.engine branches) pattern
    (fold_text lib.get_category text) (fold_text lib.get_category text).length 0
    (zero_le _)
  generalize (lib.engine branches).matchesFuel pattern (fold_text lib.get_category text)
    (fold_text lib.get_category text).length 0 = matches_ at matched ordered
  have isSplit (invert : Bool) (behavior : Mtok.SplitBehavior) :
      lib.regex_split text pattern invert behavior =
        .ok (Engine.apply_behavior (Engine.allSegments text
          ((lib.engine branches).offset text) (fold_text lib.get_category text).length
          matches_) invert behavior) := by
    rw [regex_split, if_neg some, inHouse, if_neg Bool.false_ne_true, compiled]
    show (matchLoop _ _ _ _ _ >>= _ : Except Fault (List Text)) = _
    rw [matched, isInt]
    show (Unicode.allSegments _ _ _ _ >>= _ : Except Fault (List Text)) = _
    rw [@allSegments_ok text (fold_text lib.get_category text).length
      (read (byteOffsets lib.get_category text)) ((lib.engine branches).offset text)
      offsets (fun _ le => read_offset branches le) matches_ ordered]
    rfl
  refine ⟨parsed, ?_, fun behavior invert reassembles => ?_, ?_⟩
  · refine ⟨_, ?_, (pieces_scanFuel (lib.engine branches) pattern text
      (fold_text lib.get_category text) (zero_le _)
      (le_of_eq (zero_add _).symm)).flatten_all offsets⟩
    rw [regex_scanner, if_neg some, inHouse, if_neg Bool.false_ne_true, compiled]
    show scanLoop _ _ _ _ _ _ _ = _
    rw [allFolded] at scanned
    exact scanned
  · refine ⟨_, isSplit invert behavior, ?_⟩
    rw [flatten_apply reassembles]
    exact flatten_allSegments offsets ordered
  · refine ⟨matches_.map fun m => ((lib.engine branches).offset text m.1,
      (lib.engine branches).offset text m.2), ?_, fun invert => ?_⟩
    · rw [matchesOf, if_neg some, inHouse, if_neg Bool.false_ne_true, compiled]
      show (matchLoop _ _ _ _ _ >>= _ : Except Fault (List (Nat × Nat))) = _
      rw [matched]
      refine mapM_ok fun m isIn => ?_
      obtain ⟨leFirst, leLast⟩ := MatchesFrom.le_of_mem ordered m isIn
      rw [read_offset branches leFirst, read_offset branches leLast]
      rfl
    · exact (isSplit invert .removed).trans
        (congrArg Except.ok (apply_removed offsets ordered invert))

theorem get_compiled_ok {alts : List (List RNode)}
    (parsed : parse lib.get_category pattern = .ok alts) :
    ∃ branches, get_compiled lib.get_category pattern = .ok branches := by
  have fallback : ∃ branches, parse lib.get_category kGPT2Pattern = .ok branches :=
    ⟨_, rfl⟩
  rw [get_compiled, parsed]
  show ∃ branches, (if alts.isEmpty then _ else _ : Except Fault _) = _
  split
  · exact fallback
  · exact ⟨alts, rfl⟩

/-- Behind the greatest `int` there are code points that are in no piece. -/
theorem flatten_ne_of_large (inHouse : use_wregex pattern = false)
    (large : INT_MAX < (fold_text lib.get_category text).length)
    {pieces : List Text} (scanned : lib.regex_scanner text pattern = .ok pieces) :
    pieces.flatten ≠ text := by
  have less : toInt (fold_text lib.get_category text).length ≤ INT_MAX := toInt_le _
  have some : text ≠ [] := by
    rintro rfl
    exact not_lt_zero INT_MAX large
  rw [regex_scanner, if_neg some, inHouse, if_neg Bool.false_ne_true] at scanned
  cases compiled : get_compiled lib.get_category pattern with
  | error fault =>
    rw [compiled] at scanned
    nomatch scanned
  | ok branches =>
  rw [compiled] at scanned
  generalize isSize : (toInt (fold_text lib.get_category text).length).toNat = size at *
  have short : size < (fold_text lib.get_category text).length := by omega
  have isOk := @scanLoop_ok (toInt (fold_text lib.get_category text).length) (lib.engine branches) text branches
    0 (fold_text lib.get_category text).length pattern (by
      rw [isSize]
      exact le_of_lt short) rfl (zero_le _) (by
      rw [isSize, zero_add]
      exact le_of_lt short)
  rw [isSize] at isOk
  obtain rfl := Except.ok.inj (scanned.symm.trans isOk)
  have length : ((fold_text lib.get_category text).take size).length = size := by
    rw [length_take, min_eq_left (le_of_lt short)]
  have pieces := pieces_scanFuel (lib.engine branches) pattern text
    ((fold_text lib.get_category text).take size) (zero_le _)
    (le_trans (by rw [length]; exact le_of_lt short)
      (le_add_left (fold_text lib.get_category text).length 0))
  have offsets := offsets_offset (lib.engine branches) text
  have flatten := pieces.flatten offsets (by rw [length]; exact le_of_lt short)
  have front := @offset_lt (lib.engine branches) text size _ short (le_refl _)
  have isEnd : (lib.engine branches).offset text (fold_text lib.get_category text).length =
      text.length := offsets.last
  rw [isEnd] at front
  intro same
  have cut := flatten.symm.trans same
  rw [offsets.first, length] at cut
  have lengths := congrArg List.length cut
  rw [slice, drop_zero, length_take] at lengths
  omega

/-- Every text is cut into its pieces, if and only if the pattern and the text are accepted. -/
theorem partitions_iff (lawful : lib.Lawful) (text pattern : Text) :
    lib.Partitions text pattern ↔ lib.Accepts text pattern := by
  have isLength := length_wide lib.get_category text
  constructor
  · rintro ⟨parsed, ⟨pieces, scanned, flatten⟩, -, -⟩
    refine ⟨(parse_iff lib.get_category pattern).mp parsed, fun some wide => ?_, fun inHouse => ?_⟩
    · rw [regex_scanner, if_neg some, wide, if_pos rfl] at scanned
      rw [unicode_regex_find_all] at scanned
      cases isFound : lib.wsregex_iterator (utf8_to_wstring pattern).1 (utf8_to_wstring text).1 with
      | some _ => rfl
      | none =>
        rw [isFound] at scanned
        nomatch scanned
    · rw [isLength]
      refine Nat.le_of_not_lt fun large => ?_
      exact flatten_ne_of_large inHouse large scanned flatten
  · rintro ⟨small, accepted, fits⟩
    have parsed := (parse_iff lib.get_category pattern).mpr small
    by_cases none : text = []
    · subst none
      refine ⟨parsed, ⟨[], rfl, rfl⟩, fun _ _ _ => ⟨[], rfl, rfl⟩, [], rfl, fun invert => ?_⟩
      cases invert with
      | true => rfl
      | false => rfl
    · cases wide : use_wregex pattern with
      | true => exact partitions_wregex lawful none wide parsed (accepted none wide)
      | false =>
        obtain ⟨alts, isAlts⟩ := parsed
        obtain ⟨branches, compiled⟩ := get_compiled_ok isAlts
        have fits := fits wide
        rw [isLength] at fits
        exact partitions_in_house none wide ⟨alts, isAlts⟩ compiled fits

/-- A library for patterns that are not handed to `std::wregex`. -/
def ofAscii : Library where
  get_category _ := .Cn
  wsregex_iterator _ _ := some []

theorem lawful_ofAscii : ofAscii.Lawful := by
  intro pattern text found isFound
  obtain rfl := Option.some.inj isFound
  exact .nil (zero_le _)

theorem partitions_two_of_three : ofAscii.Partitions (ascii "aaa") (ascii "a\x7b2\x7d") :=
  (partitions_iff lawful_ofAscii (ascii "aaa") (ascii "a\x7b2\x7d")).mpr
    ⟨(parse_iff ofAscii.get_category _).mp ⟨_, rfl⟩,
      fun _ wide => absurd wide (by decide), fun _ => by decide⟩

/-- A number that is no `int` ends every run with `std::out_of_range`. -/
theorem not_partitions_large_number :
    ¬∀ lib : Library, lib.Lawful → ∀ text pattern, lib.Partitions text pattern := by
  intro all
  obtain ⟨alts, isAlts⟩ :=
    (all ofAscii lawful_ofAscii (ascii "a") (ascii "a\x7b99999999999\x7d")).parsed
  have fails : parse ofAscii.get_category (ascii "a\x7b99999999999\x7d") =
      .error .out_of_range := rfl
  rw [fails] at isAlts
  nomatch isAlts

end Library

end Mnn.Regex.Unicode
