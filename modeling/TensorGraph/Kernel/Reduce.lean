import TensorGraph.Kernel.Basic

/-!
Reductions along an axis or over all elements. The shape splits around the axis into outer
places, the axis and inner places; each output place combines one lane of the axis.
-/

namespace TensorGraph.Kernel

/-- Longest list that a pairwise sum adds from left to right. -/
def pairwiseBlock : Nat := 8

/-- Sum from left to right, starting from zero. -/
def plainSum {α : Type} [Scalar α] (xs : List α) : α := xs.foldl Scalar.add Scalar.zero

/-- Sum as a balanced tree, split at half the length down to short blocks. -/
def pairwiseSum {α : Type} [Scalar α] (xs : List α) : α :=
  if xs.length ≤ pairwiseBlock then plainSum xs
  else
    Scalar.add (pairwiseSum (xs.take (xs.length / 2))) (pairwiseSum (xs.drop (xs.length / 2)))
termination_by xs.length
decreasing_by all_goals simp [pairwiseBlock] at *; omega

/-- Combines from left to right, zero when there is nothing to combine. -/
def combine {α : Type} [Scalar α] (f : α → α → α) : List α → α
  | [] => Scalar.zero
  | x :: xs => xs.foldl f x

/-- The value of one lane. -/
def reduceLane {α : Type} [Scalar α] (f : Reduction) (math : MathMode) (lane : List α) : α :=
  let sum := if math.pairwiseSum then pairwiseSum lane else plainSum lane
  math.finish <|
    match f with
    | .sum => sum
    | .mean => Scalar.div sum (Scalar.ofDouble (Float.ofNat lane.length))
    | .max => combine Scalar.max lane
    | .min => combine Scalar.min lane

/-- Places outside, along and inside the reduced axis. -/
def reduceExtents (shape : Shape) : Option Nat → Option (Nat × Nat × Nat)
  | none => some (1, shape.volume, 1)
  | some axis =>
    match shape[axis]? with
    | some len =>
      some (Shape.volume (shape.take axis), len, Shape.volume (shape.drop (axis + 1)))
    | none => none

/-- The elements of the lane of output place `i`. -/
def lane? {α : Type} (xs : Array α) (len inner i : Nat) : Option (List α) :=
  (List.range len).mapM fun j => xs[i / inner * len * inner + i % inner + j * inner]?

def reduce : Kernel
  | .reduce f axis, args => do
    let op := Op.reduce f axis
    let src ← requireInput op args 0
    let shape ← item args.shapes 0
    let some (outer, len, inner) := reduceExtents shape axis
      | throw (.shape op.name
          (s!"axis {axis.getD 0} out of range for " ++ Text.numbers shape))
    let n := args.outShape.volume
    if n ≠ outer * inner then
      throw (.shape op.name
        (Text.numbers args.outShape ++ " is not a reduction of " ++ Text.numbers shape))
    let xs ← src.view args.out.kind
    let elems ← fill args.out.elems n fun i _ => do
      let lane ← lane? xs len inner i
      some (reduceLane f args.math lane)
    return { args.out with elems }
  | op, _ => mismatch "reduce" op

end TensorGraph.Kernel
