import Mnn.Foundation.GapJoins
import Mnn.Foundation.Cutting

/-!
# The token compressor

A prompt that is too long is cut into sentences.  Some of them are chosen, in
four phases, as long as the text of the chosen ones is not too long; the text
has a gap wherever sentences are left out.  What decides on the order in which
sentences are tried are numbers of type `double`, whose operations are given.
-/

namespace Mnn.Llm.TokenCompression

open Mnn.Foundation.Cutting Mnn.Foundation.GapJoins

abbrev Tokens := List Int

/-- The first token, and the one behind the last. -/
abbrev Span := Nat × Nat

/-- The operations on `double` that rank the sentences. -/
structure DoubleOps (D : Type) where
  /-- `double(count)` -/
  ofNat : Nat → D
  /-- `.25` -/
  quarter : D
  add : D → D → D
  mul : D → D → D
  div : D → D → D
  log : D → D
  sqrt : D → D
  lt : D → D → Bool
  le : D → D → Bool
  eq : D → D → Bool
  /-- `static_cast<size_t>` -/
  toNat : D → Nat

structure Options where
  maxTokens : Nat := 64000
  boundaryTokens : Nat := 512
  blockTokens : Nat := 4096
  blocksPerGroup : Nat := 4

structure Result where
  tokens : Tokens := []
  spans : List Span := []
  selected : List Nat := []
  reserveUnits : Nat := 0
  deriving DecidableEq

structure Compressor where
  delimiters : List Tokens
  mGap : Tokens

/-- A sentence. -/
structure TextUnit where
  cost : Nat := 0
  features : List Nat := []

structure Rank (D : Type) where
  score : D
  index : Nat
  group : Nat

structure Group (D : Type) where
  cost : Nat := 0
  members : List Nat := []
  steps : List (Rank D) := []

/-! ## Sentences -/

namespace Compressor

variable (compressor : Compressor)

/-- The delimiters that begin with a token, each of them once. -/
def mDelimiters (id : Int) : List Tokens :=
  (compressor.delimiters.filter fun ids => ids.head? = some id).eraseDups

/-- The length of the longest delimiter at this place, or zero. -/
def delimiterLength (source : Tokens) (i : Nat) : Nat :=
  match source[i]? with
  | none => 0
  | some id =>
    (compressor.mDelimiters id).foldl (fun length ids =>
        if ids.length > length ∧ ids.length ≤ source.length - i ∧
            ids.isPrefixOf (source.drop i) then
          ids.length
        else
          length)
      0

/-- The last sentence has no delimiter. -/
def lastSpan (source : Tokens) (start : Nat) : List Span :=
  if start < source.length then [(start, source.length)] else []

/-- The loop of `split`, which makes at most so many steps. -/
def splitFrom (source : Tokens) : Nat → Nat → Nat → List Span
  | 0, start, _ => lastSpan source start
  | steps + 1, start, i =>
    if i < source.length then
      let length := compressor.delimiterLength source i
      if length ≠ 0 then
        (start, i + length) :: splitFrom source steps (i + length) (i + length)
      else
        splitFrom source steps start (i + 1)
    else
      lastSpan source start

def split (source : Tokens) : List Span := compressor.splitFrom source source.length 0 0

end Compressor

/-! ## Features -/

/-- The features that are known. -/
structure Features where
  featureIds : List Nat := []
  globalDf : List Nat := []
  bigrams : List Bool := []

/-- `featureIds.emplace`, which gives the place of the key. -/
def Features.emplace (known : Features) (key : Nat) (order : Nat) : Nat × Features :=
  let id := known.featureIds.idxOf key
  if id < known.featureIds.length then
    (id, known)
  else
    (id,
      { featureIds := known.featureIds ++ [key]
        globalDf := known.globalDf ++ [0]
        bigrams := known.bigrams ++ [order != 0] })

/-- The keys of the tokens and the pairs of tokens of a sentence. -/
def featureKeys (source : Tokens) (span : Span) : List (Nat × Nat) :=
  (List.range' span.1 (span.2 - span.1)).flatMap fun p =>
    ((List.range 2).filter fun order => p + order < span.2).map fun order =>
      let low :=
        if order ≠ 0 then (source.getD (p + 1) 0).toNat else 2 ^ 32 - 1
      ((source.getD p 0).toNat * 2 ^ 32 + low, order)

/-- The features of a sentence, in ascending order, each of them once. -/
def unitFeatures (source : Tokens) (span : Span) (known : Features) : List Nat × Features :=
  let (features, known) :=
    (featureKeys source span).foldl (fun (features, known) (key, order) =>
        let (id, known) := known.emplace key order
        (features ++ [id], known))
      ([], known)
  let features := (features.insertionSort (· ≤ ·)).eraseDups
  (features,
    { known with
      globalDf := features.foldl (fun globalDf f => globalDf.modify f (· + 1)) known.globalDf })

/-- What is known after some sentences. -/
structure Collected (D : Type) where
  units : List TextUnit := []
  groups : List (Group D) := []
  known : Features := {}
  block : Nat := 0
  blockCost : Nat := 0

/-- The sentence with this index joins a group. -/
def Collected.addUnit {D : Type} (source : Tokens) (options : Options) (span : Span)
    (collected : Collected D) : Collected D :=
  let i := collected.units.length
  let cost := span.2 - span.1
  let isFull :=
    collected.blockCost ≠ 0 ∧ collected.blockCost + cost > options.blockTokens
  let block := if isFull then collected.block + 1 else collected.block
  let blockCost := (if isFull then 0 else collected.blockCost) + cost
  let group := block / options.blocksPerGroup
  let groups :=
    collected.groups ++ List.replicate (group + 1 - collected.groups.length) {}
  let groups :=
    groups.modify group fun group =>
      { group with members := group.members ++ [i], cost := group.cost + cost }
  let (features, known) := unitFeatures source span collected.known
  { units := collected.units ++ [{ cost := cost, features := features }]
    groups := groups
    known := known
    block := block
    blockCost := blockCost }

def collect {D : Type} (source : Tokens) (options : Options) (spans : List Span) : Collected D :=
  spans.foldl (fun collected span => collected.addUnit source options span) {}

/-! ## Ranks -/

section Ranks

variable {D : Type} (ops : DoubleOps D)

/-- `Rank::operator<` -/
def Rank.less (first second : Rank D) : Bool :=
  if !ops.eq first.score second.score then
    ops.lt first.score second.score
  else
    first.index > second.index

/-- `top` and `pop` of the priority queue. -/
def popTop : List (Rank D) → Option (Rank D × List (Rank D))
  | [] => none
  | rank :: queue =>
    match popTop queue with
    | none => some (rank, [])
    | some (top, others) =>
      if rank.less ops top then
        some (top, rank :: others)
      else
        some (rank, top :: others)

section Prepare

variable (units : List TextUnit) (bigrams : List Bool) (members : List Nat)

def unitAt (i : Nat) : TextUnit := units.getD i {}

/-- How many members have a feature. -/
def memberDf (f : Nat) : Nat := members.countP fun i => (unitAt units i).features.contains f

def weight (f : Nat) : D := ops.mul (ops.log (ops.div (ops.ofNat (members.length + 1))
        (ops.ofNat (memberDf units members f + 1))))
    (if bigrams.getD f false then ops.quarter else ops.ofNat 1)

def gain (covered : List Nat) (i : Nat) : D :=
  let value :=
    (unitAt units i).features.foldl (fun value f =>
        if covered.contains f then
          value
        else
          ops.add value (weight ops units bigrams members f))
      (ops.ofNat 0)
  ops.div value (ops.ofNat (unitAt units i).cost)

/-- The members that gain something. -/
def firstQueue : List (Rank D) := members.filterMap fun i =>
    let value := gain ops units bigrams members [] i
    if ops.lt (ops.ofNat 0) value then
      some { score := value, index := i, group := 0 }
    else
      none

/-- The loop of `prepare`; there is no result if the fuel is used up. -/
def prepareLoop (cost : Nat) :
    Nat → List (Rank D) → Nat → List Nat → List (Rank D) → Option (List (Rank D))
  | 0, _, _, _, _ => none
  | fuel + 1, queue, spent, covered, steps =>
    match popTop ops queue with
    | none => some steps
    | some (next, queue) =>
      if spent + (unitAt units next.index).cost > cost / 4 then
        prepareLoop cost fuel queue spent covered steps
      else
        let value := gain ops units bigrams members covered next.index
        if ops.le value (ops.ofNat 0) then
          prepareLoop cost fuel queue spent covered steps
        else if !ops.eq value next.score then
          prepareLoop cost fuel (queue ++ [{ score := value, index := next.index, group := 0 }])
            spent covered steps
        else
          prepareLoop cost fuel queue (spent + (unitAt units next.index).cost)
            (covered ++ (unitAt units next.index).features)
            (steps ++ [next])

end Prepare

def prepare (fuel : Nat) (units : List TextUnit) (bigrams : List Bool)
    (group : Group D) : Option (Group D) :=
  (prepareLoop ops units bigrams group.members group.cost fuel
      (firstQueue ops units bigrams group.members) 0 [] []).map
    fun steps => { group with steps := steps }

structure Rarity (D : Type) where
  score : D
  efficiency : D
  index : Nat

/-- The least of the four best replaces itself by what is better. -/
def replaceLeast (top : List D) (idf : D) : List D :=
  let least :=
    (List.range top.length).foldl (fun least i =>
        match top[i]?, top[least]? with
        | some value, some best => if ops.lt value best then i else least
        | _, _ => least)
      0
  match top[least]? with
  | some value => if ops.lt value idf then top.set least idf else top
  | none => top

def rarity (units : List TextUnit) (globalDf : List Nat) (gapSize i : Nat) : Rarity D :=
  let unit := unitAt units i
  let idf f :=
    ops.log (ops.div (ops.ofNat (units.length + 1)) (ops.ofNat (globalDf.getD f 0 + 1)))
  let (top, totalIdf) :=
    unit.features.foldl (fun (top, totalIdf) f =>
        (replaceLeast ops top (idf f), ops.add totalIdf (idf f)))
      (List.replicate 4 (ops.ofNat 0), ops.ofNat 0)
  let score := top.foldl ops.add (ops.ofNat 0)
  { score :=
      ops.div score (ops.ofNat (max 1 (min 4 unit.features.length)))
    efficiency := ops.div (ops.div totalIdf (ops.ofNat (max 1 unit.features.length)))
        (ops.sqrt (ops.add (ops.ofNat unit.cost) (ops.ofNat gapSize)))
    index := i }

/-- The order in which sentences are reserved. -/
def Rarity.before (first second : Rarity D) : Bool :=
  if !ops.eq first.score second.score then
    ops.lt second.score first.score
  else if !ops.eq first.efficiency second.efficiency then
    ops.lt second.efficiency first.efficiency
  else
    first.index < second.index

/-- The indices of the sentences, the rarest ones first. -/
def rareIndices (units : List TextUnit) (globalDf : List Nat) (gapSize : Nat) : List Nat :=
  (((List.range units.length).map (rarity ops units globalDf gapSize)).insertionSort
      fun first second => second.before ops first = false).map
    Rarity.index

end Ranks

/-! ## Choosing sentences -/

/-- The chosen sentences, in ascending order, and what they cost. -/
structure Chosen where
  chosen : List Nat := []
  used : Int := 0

section Choose

variable (units : List TextUnit) (gapSize : Nat)

/-- What a sentence costs, with the gaps between it and its neighbours. -/
def Chosen.extra (state : Chosen) (i : Nat) : Int :=
  let before := state.chosen.takeWhile (· < i)
  let right := state.chosen.dropWhile (· < i)
  let leftAdjacent := before.getLast?.any fun left => left + 1 == i
  let rightAdjacent := right.head?.any fun right => i + 1 == right
  let extra : Int := (unitAt units i).cost
  if !state.chosen.isEmpty then
    extra + gapSize * (1 - leftAdjacent.toInt - rightAdjacent.toInt)
  else
    extra

/-- Whether a sentence is chosen, or can be and is chosen. -/
def Chosen.take (state : Chosen) (i : Nat) (limit : Int) : Bool × Chosen :=
  if state.chosen.contains i then
    (true, state)
  else
    let extra := state.extra units gapSize i
    if state.used + extra > limit then
      (false, state)
    else
      (true,
        { chosen :=
            state.chosen.takeWhile (· < i) ++
              i :: state.chosen.dropWhile (· < i)
          used := state.used + extra })

/-- A direction of the first loop; there is no result if a sentence is too long. -/
def boundaryLoop (boundaryTokens : Nat) (limit : Int) : List Nat → Nat → Chosen → Option Chosen
  | [], _, state => some state
  | i :: rest, spent, state =>
    if spent < boundaryTokens then
      let (taken, state) := state.take units gapSize i limit
      if taken then
        boundaryLoop boundaryTokens limit rest (spent + (unitAt units i).cost) state
      else
        none
    else
      some state

/-- Rare sentences are taken, and counted. -/
def reserve (limit : Int) (state : Chosen) (rare : List Nat) : Chosen × Nat := rare.foldl
    (fun (state, reserveUnits) i =>
      if state.chosen.contains i then
        (state, reserveUnits)
      else
        let (taken, state) := state.take units gapSize i limit
        (state, if taken then reserveUnits + 1 else reserveUnits))
    (state, 0)

/-- The steps of a group up to its share; the others are left. -/
def floorLoop {D : Type} (floor : Nat) (limit : Int) :
    List (Rank D) → Nat → Chosen → List (Rank D) × Chosen
  | [], _, state => ([], state)
  | step :: rest, spent, state =>
    if spent + (unitAt units step.index).cost ≤ floor then
      let (taken, state) := state.take units gapSize step.index limit
      floorLoop floor limit rest (if taken then spent + (unitAt units step.index).cost else spent)
        state
    else
      (step :: rest, state)

/-- The best step left of any group is tried, as long as there is one. -/
def queueLoop {D : Type} (ops : DoubleOps D) (limit : Int) :
    Nat → List (Rank D) → List (List (Rank D)) → Chosen → Option Chosen
  | 0, _, _, _ => none
  | fuel + 1, queue, left, state =>
    match popTop ops queue with
    | none => some state
    | some (next, queue) =>
      let (_, state) := state.take units gapSize next.index limit
      let behind := (left.getD next.group []).drop 1
      let queue :=
        match behind.head? with
        | some step => queue ++ [{ step with group := next.group }]
        | none => queue
      queueLoop ops limit fuel queue (left.set next.group behind) state

end Choose

/-! ## Compression -/

namespace Compressor

variable {D : Type} (ops : DoubleOps D) (compressor : Compressor)

/-- The share of a group. -/
def groupFloor (options : Options) (sourceSize cost : Nat) : Nat := ops.toNat (ops.div
      (ops.mul (ops.div (ops.ofNat cost) (ops.ofNat sourceSize)) (ops.ofNat options.maxTokens))
      (ops.ofNat 2))

/-- The groups take their shares; the steps that are left are kept. -/
def shareLoop (options : Options) (sourceSize : Nat) (units : List TextUnit) :
    List (Group D) → Chosen → List (List (Rank D)) × Chosen
  | [], state => ([], state)
  | group :: groups, state =>
    let (steps, state) :=
      floorLoop units compressor.mGap.length
        (groupFloor ops options sourceSize group.cost) options.maxTokens
        group.steps 0 state
    let (left, state) := shareLoop options sourceSize units groups state
    (steps :: left, state)

/-- The first steps that are left. -/
def leftQueue (left : List (List (Rank D))) : List (Rank D) :=
  left.zipIdx.filterMap fun (steps, g) =>
    steps.head?.map fun step => { step with group := g }

/-- The four phases; there is no result if a sentence at the ends is too long. -/
def choose (fuel : Nat) (options : Options) (sourceSize : Nat) (units : List TextUnit)
    (globalDf : List Nat) (groups : List (Group D)) :
    Option (Option (Chosen × Nat)) :=
  let gapSize := compressor.mGap.length
  let boundary :=
    boundaryLoop units gapSize options.boundaryTokens options.maxTokens
  match
    (boundary (List.range units.length) 0 {}).bind (boundary (List.range units.length).reverse 0)
  with
  | none => some none
  | some state =>
    let reserveLimit :=
      min (options.maxTokens : Int) (state.used + (options.maxTokens / 5 : Nat))
    let (state, reserveUnits) :=
      reserve units gapSize reserveLimit state (rareIndices ops units globalDf gapSize)
    let (left, state) :=
      compressor.shareLoop ops options sourceSize units groups state
    (queueLoop units gapSize ops options.maxTokens fuel (leftQueue left) left state).map
      fun state => some (state, reserveUnits)

/-- The tokens of a sentence. -/
def spanTokens (source : Tokens) (spans : List Span) (i : Nat) : Tokens :=
  let span := spans.getD i (0, 0)
  slice source span.1 span.2

/--
`compress`: the inner option is whether it returns `true`; there is no outcome
if the fuel of its loops is used up.
-/
def compress (fuel : Nat) (source : Tokens) (options : Options) : Option (Option Result) :=
  if options.maxTokens = 0 ∨ options.blockTokens = 0 ∨
      options.blocksPerGroup = 0 ∨ source.any (· < 0) then
    some none
  else if source.length ≤ options.maxTokens then
    some (some
        { tokens := source
          spans := if source.isEmpty then [] else [(0, source.length)]
          selected := if source.isEmpty then [] else [0] })
  else
    let spans := compressor.split source
    let collected : Collected D := collect source options spans
    (collected.groups.mapM (prepare ops fuel collected.units collected.known.bigrams)).bind
      fun groups =>
        (compressor.choose ops fuel options source.length collected.units
            collected.known.globalDf groups).map
          fun outcome =>
            outcome.bind fun (state, reserveUnits) =>
              let tokens :=
                joinFrom isNext compressor.mGap (spanTokens source spans) none state.chosen
              if !state.chosen.isEmpty ∧ tokens.length ≤ options.maxTokens then
                some
                  { tokens := tokens
                    spans := spans
                    selected := state.chosen
                    reserveUnits := reserveUnits }
              else
                none

end Compressor

end Mnn.Llm.TokenCompression
