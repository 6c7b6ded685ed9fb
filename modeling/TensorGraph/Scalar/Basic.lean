/-!
The arithmetic of one element. Kernels are written once over this class; the kinds differ only
in the instance they bring.
-/

namespace TensorGraph

/-- Arithmetic on the elements of one kind. -/
class Scalar (α : Type) where
  zero : α
  one : α
  add : α → α → α
  sub : α → α → α
  mul : α → α → α
  div : α → α → α
  max : α → α → α
  min : α → α → α
  pow : α → α → α
  neg : α → α
  abs : α → α
  relu : α → α
  exp : α → α
  log : α → α
  sqrt : α → α
  tanh : α → α
  sigmoid : α → α
  /-- The exponential by a cheaper path of less precision. -/
  fastExp : α → α
  /-- Replaces a subnormal value by zero. -/
  flush : α → α
  /-- The nearest double. -/
  toDouble : α → Float
  /-- The value of the kind that a double is converted to. -/
  ofDouble : Float → α
  /-- Numeric equality: zeros of both signs are equal, and NaN equals nothing. -/
  same : α → α → Bool
  /-- Whether the value is no number. -/
  isNaN : α → Bool

end TensorGraph
