import Mnn.Core.Region
import Mnn.Foundation.LoopNests

/-!
# Regions of a geometry

The regions of a geometry are exact if their copies are, one for each element of the
output, those that the operator asks for.
-/

namespace Mnn.Geometry

open Mnn.Core.Raster
open Mnn.Foundation.LoopNests
open List

/-! ## Strides -/

/-- `OpCommonUtils::computeStride`: the strides, and what is returned. -/
def computeStride (shape : List Nat) : List Nat × Nat := shape.foldr
    (fun length computed => (computed.2 :: computed.1, computed.2 * length))
    ([], 1)

def unravelIndexHelper : List Nat → Nat → List Nat
  | [], _ => []
  | mod :: mods, value => value / mod :: unravelIndexHelper mods (value % mod)

theorem computeStride_eq (shape : List Nat) :
    computeStride shape = (strides shape, shape.prod) := by
  induction shape with
  | nil => rfl
  | cons length shape ih =>
    show ((computeStride shape).2 :: (computeStride shape).1, (computeStride shape).2 * length) = _
    rw [ih, prod_cons, Nat.mul_comm]
    rfl

theorem unravelIndexHelper_strides (shape : List Nat) (value : Nat) :
    unravelIndexHelper (strides shape) value = unravel shape value := by
  induction shape generalizing value with
  | nil => rfl
  | cons length shape ih =>
    rw [strides, unravelIndexHelper, unravel, ih]

/-! ## Regions as nests -/

/-- The loops of a region. -/
def loopsOf (reg : Region) : List Loop :=
  [⟨(reg.size 0).toNat, reg.src.stride 0, reg.dst.stride 0⟩,
    ⟨(reg.size 1).toNat, reg.src.stride 1, reg.dst.stride 1⟩,
    ⟨(reg.size 2).toNat, reg.src.stride 2, reg.dst.stride 2⟩]

theorem moves_eq_nest (reg : Region) :
    reg.moves = shifted reg.src.offset reg.dst.offset (nest (loopsOf reg)) := by
  have isAt (view : View) (z y x : Int) :
      view.at ![z, y, x] =
        view.offset + (z * view.stride 0 + (y * view.stride 1 + x * view.stride 2)) := by
    simp [View.at, Mnn.Foundation.StridedLoops.dot, Fin.sum_univ_succ]
  simp only [Region.moves, Region.indices, loopsOf, nest, shifted,
    map_eq_flatMap, flatMap_assoc, flatMap_cons, flatMap_nil,
    append_nil, isAt, add_zero]

theorem moves_eq_flatMap (reg : Region) :
    reg.moves = (List.range (reg.size 0).toNat).flatMap fun (z : Nat) =>
        (List.range (reg.size 1).toNat).flatMap fun (y : Nat) =>
          (List.range (reg.size 2).toNat).map fun (x : Nat) =>
            (reg.src.offset + (z * reg.src.stride 0 + (y * reg.src.stride 1 +
                x * reg.src.stride 2)),
              reg.dst.offset + (z * reg.dst.stride 0 + (y * reg.dst.stride 1 +
                x * reg.dst.stride 2))) := by
  simp only [moves_eq_nest, loopsOf, nest, shifted, map_eq_flatMap,
    flatMap_assoc, flatMap_cons, flatMap_nil, append_nil, add_zero]

/-- All copies of some regions. -/
def movesOf (regions : List Region) : List (Int × Int) := regions.flatMap Region.moves

theorem moves_enumerated (outer inner : List Loop) :
    ((List.range (outer.map Loop.size).prod).flatMap fun number =>
        shifted (weigh (unravel (outer.map Loop.size) number) (outer.map Loop.left))
          (weigh (unravel (outer.map Loop.size) number) (outer.map Loop.right)) (nest inner)) =
      nest (outer ++ inner) := by
  rw [nest_append, nest_eq_map outer, ← map_unravel, map_map, flatMap_map]
  rfl

/-! ## The last three axes -/

/-- An element of an array of the last three axes, or what a region has by default. -/
def lastThree (count : Nat) (values : List Int) (i : Fin 3) : Int :=
  if 3 ≤ count + i.val then values.getD (count + i.val - 3) 1 else 1

theorem lastThree_append (outer : List Int) (first second last : Int) :
    lastThree (outer.length + 3) (outer ++ [first, second, last]) = ![first, second, last] := by
  funext i
  have isPlace : outer.length + 3 + i.val - 3 = outer.length + i.val := by omega
  rw [lastThree, if_pos (by omega), isPlace, getD_eq_getElem?_getD,
    getElem?_append_right (Nat.le_add_right ..), Nat.add_sub_cancel_left]
  fin_cases i <;> rfl

theorem nest_lastThree (loops : List Loop) : nest
        [⟨(lastThree loops.length (loops.map fun loop => (loop.size : Int)) 0).toNat,
            lastThree loops.length (loops.map Loop.left) 0,
            lastThree loops.length (loops.map Loop.right) 0⟩,
          ⟨(lastThree loops.length (loops.map fun loop => (loop.size : Int)) 1).toNat,
            lastThree loops.length (loops.map Loop.left) 1,
            lastThree loops.length (loops.map Loop.right) 1⟩,
          ⟨(lastThree loops.length (loops.map fun loop => (loop.size : Int)) 2).toNat,
            lastThree loops.length (loops.map Loop.left) 2,
            lastThree loops.length (loops.map Loop.right) 2⟩] =
      nest (loops.drop (loops.length - 3)) := by
  by_cases isShort : loops.length < 3
  · match loops, isShort with
    | [], _ => rfl
    | [last], _ =>
      rw [nest_unit rfl, nest_unit rfl]
      rfl
    | [second, last], _ =>
      rw [nest_unit rfl]
      rfl
  · have isThree : (loops.drop (loops.length - 3)).length = 3 := by
      rw [length_drop]
      omega
    rcases length_eq_three.mp isThree with ⟨first, second, last, areLast⟩
    have isWhole := take_append_drop (loops.length - 3) loops
    have isOuter : (loops.take (loops.length - 3)).length + 3 = loops.length := by
      rw [length_take]
      omega
    rw [areLast] at isWhole ⊢
    generalize loops.take (loops.length - 3) = outer at isWhole isOuter
    subst isWhole
    simp only [map_append, map_cons, map_nil]
    rw [← isOuter]
    have isLast (value : Loop → Int) : lastThree (outer.length + 3)
            (outer.map value ++ [value first, value second, value last]) =
          ![value first, value second, value last] := by
      rw [← lastThree_append, length_map]
    rw [isLast fun loop => (loop.size : Int), isLast Loop.left, isLast Loop.right]
    rfl

/-- The outer loops are enumerated, and the last three are those of a region. -/
theorem movesOf_lastThree (loops : List Loop) (input : TensorPtr) : movesOf
        ((List.range ((loops.map Loop.size).take (loops.length - 3)).prod).map
          fun index =>
            { src :=
                { offset :=
                    weigh (unravel ((loops.map Loop.size).take (loops.length - 3)) index)
                      ((loops.map Loop.left).take (loops.length - 3))
                  stride := lastThree loops.length (loops.map Loop.left) }
              dst :=
                { offset :=
                    weigh (unravel ((loops.map Loop.size).take (loops.length - 3)) index)
                      ((loops.map Loop.right).take (loops.length - 3))
                  stride := lastThree loops.length (loops.map Loop.right) }
              size := lastThree loops.length (loops.map fun loop => (loop.size : Int))
              origin := some input }) =
      nest loops := by
  have isEnumerated :=
    moves_enumerated (loops.take (loops.length - 3)) (loops.drop (loops.length - 3))
  rw [take_append_drop, map_take, map_take, map_take] at isEnumerated
  rw [← isEnumerated, movesOf, flatMap_map]
  congr 1
  funext index
  rw [moves_eq_nest, ← nest_lastThree]
  rfl

/-! ## Writes -/

/-- A tensor, and a place in it. -/
abbrev Source : Type := Option TensorPtr × Int

def writesOf (regions : List Region) : List (Source × Int) :=
  regions.flatMap fun reg => reg.moves.map fun move => ((reg.origin, move.1), move.2)

theorem writesOf_append (first second : List Region) :
    writesOf (first ++ second) = writesOf first ++ writesOf second :=
  flatMap_append

theorem writesOf_flatMap {Item : Type} (items : List Item) (regions : Item → List Region) :
    writesOf (items.flatMap regions) = items.flatMap fun item => writesOf (regions item) :=
  flatMap_assoc

/--
Every element of the output is written once, from the element of the input at the
index that `pick` chooses for it.
-/
structure Exact (regions : List Region) (input : TensorPtr)
    (inputShape outputShape : List Nat) (pick : List Nat → List Nat) : Prop where
  origin : ∀ reg ∈ regions, reg.origin = some input
  moves : (movesOf regions).Perm ((boxIndices outputShape).map fun index =>
        (address inputShape (pick index), address outputShape index))

def makeFullSlice (input : TensorPtr) (inputShape : List Nat) : Region :=
  let size : Int := inputShape.foldl (fun (size : Int) (length : Nat) => size * length) 1
  { src := { offset := 0, stride := ![size, size, 1] }
    dst := { offset := 0, stride := ![size, size, 1] }
    size := ![1, 1, size]
    origin := some input }

theorem moves_makeFullSlice (input : TensorPtr) (inputShape : List Nat) :
    (makeFullSlice input inputShape).moves = nest [⟨inputShape.prod, 1, 1⟩] := by
  have isSize (size : Int) :
      inputShape.foldl (fun (size : Int) (length : Nat) => size * length) size =
        size * (inputShape.prod : Nat) := by
    induction inputShape generalizing size with
    | nil => simp
    | cons length inputShape ih =>
      rw [foldl_cons, ih, prod_cons]
      push_cast
      ring
  rw [moves_eq_nest]
  show shifted 0 0 (nest [⟨1, _, _⟩, ⟨1, _, _⟩, ⟨Int.toNat _, 1, 1⟩]) = _
  rw [shifted_zero, nest_unit rfl, nest_unit rfl]
  show nest [⟨Int.toNat (List.foldl _ _ _), 1, 1⟩] = _
  rw [isSize, one_mul, Int.toNat_natCast]

end Mnn.Geometry
