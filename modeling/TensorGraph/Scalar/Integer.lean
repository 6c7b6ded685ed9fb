import TensorGraph.Scalar.Basic

/-!
Integer elements. Arithmetic wraps at the width of the kind, and division by zero gives zero.
The functions of analysis are computed in double precision and converted back, which truncates
toward zero, stops at the bounds of the kind and sends NaN to zero.
-/

namespace TensorGraph.Scalar

/-- The logistic function in double precision. -/
def logistic (x : Float) : Float := 1.0 / (1.0 + Float.exp (-x))

/-- Wrapping arithmetic on an integer word, with conversions `toDouble` and `ofDouble`. -/
@[reducible] def ofWord (α : Type) [OfNat α 0] [OfNat α 1] [Add α] [Sub α] [Mul α] [Div α] [BEq α]
    [LT α] [DecidableLT α] (neg abs : α → α) (toDouble : α → Float) (ofDouble : Float → α) :
    Scalar α where
  zero := 0
  one := 1
  add a b := a + b
  sub a b := a - b
  mul a b := a * b
  div a b := if b == 0 then 0 else a / b
  max a b := if b < a then a else b
  min a b := if a < b then a else b
  pow a b := ofDouble (Float.pow (toDouble a) (toDouble b))
  neg := neg
  abs := abs
  relu a := if (0 : α) < a then a else 0
  exp a := ofDouble (Float.exp (toDouble a))
  log a := ofDouble (Float.log (toDouble a))
  sqrt a := ofDouble (Float.sqrt (toDouble a))
  tanh a := ofDouble (Float.tanh (toDouble a))
  sigmoid a := ofDouble (logistic (toDouble a))
  fastExp a := ofDouble (Float.exp (toDouble a))
  flush a := a
  toDouble := toDouble
  ofDouble := ofDouble
  same a b := a == b
  isNaN _ := false

instance : Scalar UInt8 := ofWord UInt8 id id UInt8.toFloat Float.toUInt8

instance : Scalar UInt32 := ofWord UInt32 id id UInt32.toFloat Float.toUInt32

instance : Scalar Int32 :=
  ofWord Int32 (fun x => -x) (fun x => if x < 0 then -x else x) Int32.toFloat Float.toInt32

instance : Scalar Int64 :=
  ofWord Int64 (fun x => -x) (fun x => if x < 0 then -x else x) Int64.toFloat Float.toInt64

end TensorGraph.Scalar
