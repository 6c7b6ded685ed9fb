import TensorGraph.Kernel.Elementwise

/-!
Evaluation of a fused expression, block by block: one row of registers per step, as long as the
block. A block is read in full before it is overwritten.
-/

namespace TensorGraph.Kernel

/-- Elements in a block. -/
def blockSize : Nat := 4096

/-- The row of one step, for the block that starts at place `base` and holds `block` now. -/
def stepRow {α : Type} [Scalar α] (math : MathMode) (srcs : List (Source α)) (base : Nat)
    (block : List α) (rows : List (List α)) : Step → Option (List α)
  | .load k => do
    let src ← srcs[k]?
    mapFrom src.get base block
  | .unary f a => do
    let x ← rows[a]?
    some (x.map (math.unary f))
  | .binary f a b => do
    let x ← rows[a]?
    let y ← rows[b]?
    some (List.zipWith (math.binary f) x y)

/-- The rows of all steps, after the rows already there. -/
def stepRows {α : Type} [Scalar α] (math : MathMode) (srcs : List (Source α)) (base : Nat)
    (block : List α) : List (List α) → List Step → Option (List (List α))
  | rows, [] => some rows
  | rows, step :: steps => do
    let row ← stepRow math srcs base block rows step
    stepRows math srcs base block (rows ++ [row]) steps

/-- The new contents of a block: the last row, or the old contents for no steps at all. -/
def runBlock {α : Type} [Scalar α] (math : MathMode) (steps : List Step) (srcs : List (Source α))
    (base : Nat) (block : List α) : Option (List α) := do
  let rows ← stepRows math srcs base block [] steps
  some (rows.getLast?.getD block)

/-- The new contents of the places from `base` on, taken in blocks of `size`. -/
def runBlocks {α : Type} [Scalar α] (math : MathMode) (steps : List Step)
    (srcs : List (Source α)) (size base : Nat) (old : List α) : Option (List α) :=
  if _ : 0 < size ∧ 0 < old.length then do
    let head ← runBlock math steps srcs base (old.take size)
    let tail ← runBlocks math steps srcs size (base + size) (old.drop size)
    some (head ++ tail)
  else some []
termination_by old.length
decreasing_by simp only [List.length_drop]; omega

/-- Resolves the inputs in order, as far as both lists go. -/
def sources (kind : Kind) (n : Nat) : List Operand → List Shape →
    Except Error (List (Source (Elem kind)))
  | operand :: operands, shape :: shapes => do
    let src ← Source.of kind operand shape n
    let rest ← sources kind n operands shapes
    return src :: rest
  | _, _ => .ok []

def fused : Kernel
  | .fused expr, args => do
    if args.inputs.length ≠ expr.inputs then
      throw (.shape "fused"
        s!"expression takes {expr.inputs} inputs, got {args.inputs.length}")
    let n := args.outShape.volume
    if args.out.size < n then throw .crash
    let srcs ← sources args.out.kind n args.inputs args.shapes
    match runBlocks args.math expr.steps srcs blockSize 0 (args.out.elems.extract 0 n).toList with
    | some xs =>
      return { args.out with elems := xs.toArray ++ args.out.elems.extract n args.out.size }
    | none => throw .crash
  | op, _ => mismatch "fused" op

end TensorGraph.Kernel
