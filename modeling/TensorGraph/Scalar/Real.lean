import TensorGraph.Scalar.Integer

/-!
Single and double precision elements: the arithmetic of the IEEE formats, rounded to nearest
even. A maximum or minimum with NaN is the other operand, and of two equal operands (zeros of
opposite sign) it is the second.
-/

namespace TensorGraph.Scalar

namespace Single

def max (a b : Float32) : Float32 :=
  if a.isNaN then b else if b.isNaN then a else if b < a then a else b

def min (a b : Float32) : Float32 :=
  if a.isNaN then b else if b.isNaN then a else if a < b then a else b

/-- A nonzero value whose exponent field is zero. -/
def isSubnormal (x : Float32) : Bool :=
  (x.toBits &&& 0x7f800000) == 0 && (x.toBits &&& 0x007fffff) != 0

def logistic (x : Float32) : Float32 := 1.0 / (1.0 + Float32.exp (-x))

def infinity : Float32 := Float32.ofBits 0x7f800000

/-- The exponential as `2 ^ i · p(f)`, with the argument times log₂ e split into its integer
part `i` and fraction `f`, and `p` a cubic. It is zero below the normal range and infinite
above it. -/
def fastExp (x : Float32) : Float32 :=
  let t := x * 1.4426950408889634
  if t > 127.0 then infinity
  else if t < -126.0 then 0.0
  else
    let i := t.floor
    let f := t - i
    let p := 1.0 + f * (0.6959761 + f * (0.2249404 + f * 0.0790831))
    p * Float32.ofBits ((i.toInt32 + 127).toUInt32 <<< 23)

end Single

namespace Double

def max (a b : Float) : Float :=
  if a.isNaN then b else if b.isNaN then a else if b < a then a else b

def min (a b : Float) : Float :=
  if a.isNaN then b else if b.isNaN then a else if a < b then a else b

/-- A nonzero value whose exponent field is zero. -/
def isSubnormal (x : Float) : Bool :=
  (x.toBits &&& 0x7ff0000000000000) == 0 && (x.toBits &&& 0x000fffffffffffff) != 0

end Double

instance : Scalar Float32 where
  zero := 0.0
  one := 1.0
  add a b := a + b
  sub a b := a - b
  mul a b := a * b
  div a b := a / b
  max := Single.max
  min := Single.min
  pow := Float32.pow
  neg a := -a
  abs := Float32.abs
  relu a := Single.max a 0.0
  exp := Float32.exp
  log := Float32.log
  sqrt := Float32.sqrt
  tanh := Float32.tanh
  sigmoid := Single.logistic
  fastExp := Single.fastExp
  flush a := if Single.isSubnormal a then 0.0 else a
  toDouble := Float32.toFloat
  ofDouble := Float.toFloat32
  same a b := a == b
  isNaN := Float32.isNaN

instance : Scalar Float where
  zero := 0.0
  one := 1.0
  add a b := a + b
  sub a b := a - b
  mul a b := a * b
  div a b := a / b
  max := Double.max
  min := Double.min
  pow := Float.pow
  neg a := -a
  abs := Float.abs
  relu a := Double.max a 0.0
  exp := Float.exp
  log := Float.log
  sqrt := Float.sqrt
  tanh := Float.tanh
  sigmoid := logistic
  fastExp a := (Single.fastExp a.toFloat32).toFloat
  flush a := if Double.isSubnormal a then 0.0 else a
  toDouble a := a
  ofDouble a := a
  same a b := a == b
  isNaN := Float.isNaN

end TensorGraph.Scalar
