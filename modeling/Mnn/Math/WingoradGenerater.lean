import Mnn.Math.Matrix

/-!
# The matrices of Winograd's convolution

The points are zero and pairs of opposite multiples of `interp`, and the last
column of each matrix belongs to the point at infinity.
-/

namespace Mnn.Math

/-- The products of the differences to the other points. -/
def computeF (a : Nat → ℚ) (alpha : Nat) : Tensor ℚ where
  width := alpha
  height := 1
  host := fun _ x =>
    ∏ i ∈ Finset.range alpha, if x = i then 1 else a x - a i

def computeT (a : Nat → ℚ) (n : Nat) : Tensor ℚ where
  width := n + 1
  height := n
  host := fun y x => if x = n then -a y ^ n else if x = y then 1 else 0

/-- The polynomial that is zero in the other points, from the first ones. -/
def computeLPoly (a : Nat → ℚ) (k : Nat) : Nat → Tensor ℚ
  | 0 => { width := 1, height := 1, host := fun _ _ => 1 }
  | i + 1 =>
    if i = k then
      computeLPoly a k i
    else
      (computeLPoly a k i).polyMulti
        { width := 2
          height := 1
          host := fun _ x => if x = 0 then -a i else 1 }

def computeL (a : Nat → ℚ) (n : Nat) : Tensor ℚ where
  width := n
  height := n
  host := fun k x => (computeLPoly a k n).host 0 x

def computeB (a : Nat → ℚ) (alpha : Nat) : Tensor ℚ :=
  let LT := (computeL a (alpha - 1)).divPerLine (computeF a (alpha - 1))
  let L := LT.transpose (alpha - 1) (alpha - 1)
  let BT := L.multi (computeT a (alpha - 1))
  { width := alpha
    height := alpha
    host := fun y x =>
      if y = alpha - 1 then
        if x = alpha - 1 then 1 else 0
      else
        BT.host y x }

def computeA (a : Nat → ℚ) (m n : Nat) : Tensor ℚ where
  width := m
  height := n
  host := fun y x =>
    if x = m - 1 then
      if y = n - 1 then 1 else 0
    else if x = 0 ∧ y = 0 then
      1
    else
      a x ^ y

/-- `computeF` for all points but that at infinity; the first one is not negative. -/
def computeFDiag (a : Nat → ℚ) (alpha : Nat) : Tensor ℚ :=
  let diagData := fun x =>
    if x = alpha - 1 then
      1
    else
      ∏ i ∈ Finset.range (alpha - 1), if x = i then 1 else a x - a i
  { width := alpha
    height := 1
    host := fun _ x =>
      if x = 0 ∧ diagData 0 < 0 then -diagData 0 else diagData x }

/-- The points `a`, with `sign * value` before it is multiplied. -/
def polyBuffer (interp : ℚ) : Nat → ℚ
  | 0 => 0
  | i + 1 =>
    let value : Int := 1 + i / 2
    let sign : Int := if i % 2 = 0 then 1 else -1
    ((sign * value : Int) : ℚ) * interp

/-- The tensors of a `WinogradGenerater`. -/
structure WinogradGenerater where
  mA : Tensor ℚ
  mA_Right : Tensor ℚ
  mG : Tensor ℚ
  mG_Right : Tensor ℚ
  mB : Tensor ℚ

namespace WinogradGenerater

/-- A tensor of one value. -/
def single (value : ℚ) : Tensor ℚ where
  width := 1
  height := 1
  host := fun _ _ => value

/--
The constructor with vectors, which are given as `Y` and `X`.  What `mA_Right`
holds if there is only one column is not written, but `uninit`.
-/
def ofUnits (computeUnit kernelSize : Nat × Nat) (interp : ℚ)
    (dividedInG : Bool) (uninit : ℚ) : WinogradGenerater :=
  let nY := computeUnit.1
  let nX := computeUnit.2
  let rY := kernelSize.1
  let rX := kernelSize.2
  let alpha := max (nY + rY - 1) (nX + rX - 1)
  let a := polyBuffer interp
  let fdiag := computeFDiag a alpha
  { mA :=
      if 1 < nY then
        (computeA a alpha nY).transpose nY alpha
      else
        single 1
    mA_Right :=
      if 1 < nX then
        computeA a alpha nX
      else
        single uninit
    mG :=
      if 1 < nY then
        let mG := (computeA a alpha rY).transpose rY alpha
        if dividedInG then mG.divPerLine fdiag else mG
      else
        single 1
    mG_Right :=
      if 1 < nX then
        let mG_Right := computeA a alpha rX
        if dividedInG then
          ((mG_Right.transpose rX alpha).divPerLine fdiag).transpose alpha rX
        else
          mG_Right
      else
        single 1
    mB :=
      let B := computeB a alpha
      if dividedInG then
        ((B.transpose alpha alpha).mulPerLine fdiag).transpose alpha alpha
      else
        B }

/-- The constructor with a unit and a kernel size for both directions. -/
def create (computeUnit kernelSize : Nat) (interp : ℚ) (dividedInG : Bool)
    (uninit : ℚ) : WinogradGenerater :=
  ofUnits (computeUnit, computeUnit) (kernelSize, kernelSize) interp dividedInG uninit

/-- `transformWeight` of the kernel of one input and one output channel. -/
def transformWeight (generater : WinogradGenerater) (K : Tensor ℚ) : Tensor ℚ :=
  (generater.mG.multi K).multi generater.mG_Right

end WinogradGenerater

end Mnn.Math
