import Mathlib

/-!
# Matrices

What `Math::Matrix` does with tensors of two dimensions, over a field in place of
the floating-point numbers.  A loop that adds up or multiplies is a sum or a
product.
-/

namespace Mnn.Math

/-- A tensor that `Matrix::create` allocates; `host y x` is in line `y`. -/
structure Tensor (K : Type*) where
  width : Nat
  height : Nat
  host : Nat → Nat → K

namespace Tensor

section Entries

variable {K : Type*}

/-- `Matrix::transpose`, into a tensor of this size. -/
def transpose (width height : Nat) (src : Tensor K) : Tensor K where
  width := width
  height := height
  host := fun y x => src.host x y

/-- The matrix in the first lines and columns. -/
def toMatrix (tensor : Tensor K) (height width : Nat) : Matrix (Fin height) (Fin width) K :=
  Matrix.of fun y x => tensor.host y x

@[simp]
theorem toMatrix_apply (tensor : Tensor K) {height width : Nat} (y : Fin height) (x : Fin width) :
    tensor.toMatrix height width y x = tensor.host y x :=
  rfl

end Entries

variable {K : Type*} [Field K]

def multi (A B : Tensor K) : Tensor K where
  width := B.width
  height := A.height
  host := fun y x => ∑ i ∈ Finset.range A.width, A.host y i * B.host i x

def mulPerLine (A Line : Tensor K) : Tensor K where
  width := A.width
  height := A.height
  host := fun y x => A.host y x * Line.host 0 y

def divPerLine (A Line : Tensor K) : Tensor K where
  width := A.width
  height := A.height
  host := fun y x => A.host y x / Line.host 0 y

/-- `Matrix::polyMulti`; each product is added to one coefficient. -/
def polyMulti (A B : Tensor K) : Tensor K where
  width := A.width + B.width - 1
  height := 1
  host := fun _ i =>
    ∑ y ∈ Finset.range B.width, ∑ x ∈ Finset.range A.width,
      if x + y = i then B.host 0 y * A.host 0 x else 0

theorem toMatrix_multi (A B : Tensor K) {height inner : Nat}
    (width : A.width = inner) (columns : Nat) :
    (A.multi B).toMatrix height columns = A.toMatrix height inner * B.toMatrix inner columns := by
  subst width
  ext y x
  rw [Matrix.mul_apply]
  exact Finset.sum_range fun i => A.host y i * B.host i x

end Tensor

end Mnn.Math
