import TensorGraph.Op.Basic
import TensorGraph.Shape

/-!
Runtime shapes of operations: the extents of a result for operands of known extents, and whether
the sizes that this takes can be counted.
-/

namespace TensorGraph

/-- Shape of an elementwise result of several operands. -/
def Shape.broadcastAll (op : String) (shape : Shape) : List Shape → Except Error Shape
  | [] => .ok shape
  | s :: ss => do
    let joined ← Shape.broadcast op shape s
    joined.broadcastAll op ss

/-- The extents in the order `perm`; an entry outside the shape is a crash. -/
def Shape.permuted (shape : Shape) (perm : List Nat) : Except Error Shape :=
  match perm.mapM fun p => shape[p]? with
  | some s => .ok s
  | none => .error .crash

namespace Op

/-- Shape of a product of matrices or of batches of them. -/
def productShape? : Shape → Shape → Option Shape
  | [m, k], [k', n] => if k = k' then some [m, n] else none
  | [b, m, k], [b', k', n] => if b = b' ∧ k = k' then some [b, m, n] else none
  | _, _ => none

/-- Concrete output shape for concrete input shapes. -/
def outputShape (op : Op) (inputs : List Shape) : Except Error Shape := do
  if inputs.length ≠ op.arity then
    throw (.shape op.name s!"expected {op.arity} inputs, got {inputs.length}")
  match inputs with
  | [] => throw .crash
  | first :: rest =>
    match op with
    | unary _ | cast _ | toDevice _ | toHost => return first
    | binary _ | fused _ => first.broadcastAll op.name rest
    | reduce _ none => return []
    | reduce _ (some axis) =>
      if axis < first.length then return first.eraseIdx axis
      else throw (.shape op.name s!"axis {axis} out of range")
    | matmul =>
      let second := rest.headD []
      match productShape? first second with
      | some shape => return shape
      | none => throw (.shape op.name
          ("cannot multiply " ++ Text.numbers first ++ " by " ++ Text.numbers second))
    | reshape shape =>
      if !(Shape.counts shape && first.counts) then throw .crash
      else if Shape.volume shape = first.volume then return shape
      else throw (.shape op.name
        ("cannot reshape " ++ Text.numbers first ++ " into " ++ Text.numbers shape))
    | transpose perm =>
      if perm.length = first.length then first.permuted perm
      else throw (.shape op.name (Text.numbers perm ++ " does not match " ++ Text.numbers first))

/-- Whether a kernel can count what it works with besides the elements of its operands and of its
result: the places outside and inside of a reduced axis, the strides of the operand that it
transposes, the elements of a product. -/
def counts (op : Op) (inputs : List Shape) : Bool :=
  match op, inputs with
  | reduce _ (some axis), s :: _ =>
    axis ≥ s.length || (Shape.counts (s.take axis) && Shape.counts (s.drop (axis + 1)))
  | matmul, lhs :: rhs :: _ => (productShape? lhs rhs).all Shape.counts
  | transpose perm, s :: _ => perm.length ≠ s.length || s.strides.all (· < Shape.word)
  | _, _ => true

/-- The output shape of an operation that is about to run. Sizes that overflow, on the way or in
its kernel, and results that no memory has room for are a crash. -/
def resultShape (op : Op) (inputs : List Shape) : Except Error Shape := do
  let shape ← op.outputShape inputs
  if op.counts inputs && shape.fits then return shape
  else throw .crash

end Op

end TensorGraph
