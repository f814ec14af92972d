import CallByNeed.Arithmetic.Matrix

/-!
# Kernels

A kernel implements one or more named computations on a whole vector, which may
be the cells of a matrix.  It answers `none` for a computation it does not have
and for an input whose shape it does not cover.  Kernels compute by the same
routines as the builtins, so putting one in the place of a builtin changes no
result.
-/

namespace CallByNeed

/-- What a kernel computes on: numbers, and the extents of the matrix they are the cells of. -/
structure KernelOperand where
  values : Array Float
  extents : Option (Nat × Nat)

namespace KernelOperand

/-- The matrix that the input is, if its extents say so and there are as many cells. -/
def matrix? (input : KernelOperand) : Option Matrix :=
  input.extents.bind (Matrix.ofCells? input.values)

end KernelOperand

structure Kernel where
  operations : List String
  compute : String → KernelOperand → Option (Array Float)
  /-- The result of a computation that goes on from a number over further elements, for the
      computations that support it. -/
  fold : String → Float → Array Float → Option Float := fun _ _ _ => none

namespace Kernel

def sumMean : Kernel where
  operations := ["sum", "mean"]
  compute operation input :=
    match operation with
    | "sum" => some #[sum input.values]
    | "mean" => some #[mean input.values]
    | _ => none
  fold operation start xs := if operation = "sum" then some (sumFrom start xs) else none

def rowMean : Kernel where
  operations := ["rowMeans"]
  compute operation input :=
    if operation = "rowMeans" then input.matrix?.map Matrix.rowMeans else none

def colSum : Kernel where
  operations := ["colSums"]
  compute operation input :=
    if operation = "colSums" then input.matrix?.map Matrix.colSums else none

end Kernel

end CallByNeed
