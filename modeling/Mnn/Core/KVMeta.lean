import Mathlib

/-!
# The meta data of the KV cache

`previous` rows are stored.  Before the next rows are added, the last `remove`
of them are dropped, apart from those in the reserved ranges, which count from
the first row that is dropped.  Sizes are natural numbers: overflow is not
modelled.
-/

namespace Mnn.Core

open List

/-- The fields of `KVMeta` that say which rows there are. -/
structure KVMeta where
  previous : Nat := 0
  remove : Nat := 0
  /-- The pairs in `reserve`, of which there are `n_reserve`. -/
  reserve : List (Nat × Nat) := []
  add : Nat := 0
  deriving DecidableEq, Repr

namespace KVMeta

/-- The loop sums the sizes and gives up at a size that is not positive. -/
def computeReverseSize (kvMeta : KVMeta) : Int :=
  if kvMeta.reserve.any fun range => range.2 ≤ 0 then
    -1
  else
    (kvMeta.reserve.map Prod.snd).sum

def sync (kvMeta : KVMeta) : KVMeta :=
  let revertNumber := (kvMeta.reserve.map Prod.snd).sum
  { previous := kvMeta.previous - kvMeta.remove + kvMeta.add + revertNumber
    remove := 0
    reserve := []
    add := 0 }

/-- The rows of a range, which counts from `start`. -/
def rangeRows (start : Nat) (range : Nat × Nat) : List Nat := List.range' (start + range.1) range.2

/-- The stored rows that are kept, in the order in which they are kept. -/
def keptRows (kvMeta : KVMeta) : List Nat :=
  List.range (kvMeta.previous - kvMeta.remove) ++
    kvMeta.reserve.flatMap (rangeRows (kvMeta.previous - kvMeta.remove))

theorem length_flatMap_rangeRows (start : Nat) (reserve : List (Nat × Nat)) :
    (reserve.flatMap (rangeRows start)).length = (reserve.map Prod.snd).sum := by
  induction reserve with
  | nil => rfl
  | cons range rest ih =>
    rw [flatMap_cons, length_append, map_cons, sum_cons,
      ih, rangeRows, length_range']

theorem flatMap_rangeRows_eq_nil (start : Nat) {reserve : List (Nat × Nat)} :
    reserve.flatMap (rangeRows start) = [] ↔ ∀ range ∈ reserve, range.2 = 0 := by
  simp only [flatMap_eq_nil_iff, rangeRows, List.range'_eq_nil_iff]

/-- The rows that are kept and the rows that are added are counted. -/
theorem sync_previous (kvMeta : KVMeta) :
    kvMeta.sync.previous = kvMeta.keptRows.length + kvMeta.add := by
  rw [keptRows, length_append, length_range, length_flatMap_rangeRows]
  simp only [sync]
  omega

theorem keptRows_sync (kvMeta : KVMeta) : kvMeta.sync.keptRows = List.range kvMeta.sync.previous :=
  append_nil _

end KVMeta

end Mnn.Core
