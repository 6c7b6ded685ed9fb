import TensorGraph.Kernel.Basic

/-!
Kernels that move elements without changing them. Elements are stored row by row, so a reshape
only copies; a transposition reads each output place at an input offset found axis by axis.
-/

namespace TensorGraph.Kernel

def reshape : Kernel
  | .reshape target, args => do
    let src ← requireInput (.reshape target) args 0
    let shape ← item args.shapes 0
    let n := args.outShape.volume
    if shape.volume ≠ n then
      throw (.shape "reshape" ("cannot reshape " ++ Text.numbers shape ++ " into " ++
        Text.numbers args.outShape))
    args.out.copyFrom src n
  | op, _ => mismatch "reshape" op

/-- Offset in the input of output place `i`. The extents and the input strides of the output
axes come last axis first. -/
def gatherOffset (i : Nat) : List (Nat × Nat) → Nat
  | [] => 0
  | (extent, stride) :: axes => i % extent * stride + gatherOffset (i / extent) axes

def transpose : Kernel
  | .transpose perm, args => do
    let src ← requireInput (.transpose perm) args 0
    let shape ← item args.shapes 0
    if perm.length ≠ shape.length ∨ args.outShape.length ≠ shape.length then
      throw (.shape "transpose" (Text.numbers perm ++ " does not match " ++ Text.numbers shape))
    let strides ← Shape.permuted shape.strides perm
    let n := args.outShape.volume
    let xs ← src.view args.out.kind
    let axes := (args.outShape.zip strides).reverse
    let elems ← fill args.out.elems n fun i _ => xs[gatherOffset i axes]?
    return { args.out with elems }
  | op, _ => mismatch "transpose" op

end TensorGraph.Kernel
