import TensorGraph.Scalar.Real

/-!
The two 16-bit floating-point formats. Arithmetic converts to single precision, operates once
and rounds to nearest even; only the sign change works on the bits. Both formats are the top of
one scheme: a sign, an exponent field and a mantissa field, packed and unpacked by the model of
binary formats that comes with the language.
-/

namespace TensorGraph

open Float.Model (Format UnpackedFloat)

namespace Rounding

/-- The value rounded to the precision of `target`, to nearest even. -/
def into (target : Format) : UnpackedFloat → UnpackedFloat
  | .finite sign mantissa exponent _ => UnpackedFloat.round target sign mantissa exponent
  | other => other

/-- The bits that `target` gives to a single. -/
def ofSingle (target : Format) (x : Float32) : BitVec target.numBits :=
  (into target (UnpackedFloat.unpack .binary32 x.toBits.toBitVec)).pack target

/-- The single with the value of the bits. Exact for formats no wider than a single. -/
def toSingle (source : Format) (bits : BitVec source.numBits) : Float32 :=
  Float32.ofBits ⟨(into .binary32 (UnpackedFloat.unpack source bits)).pack .binary32⟩

/-- The integer nearest to `m / 2 ^ k`, a half going to the even neighbour. -/
def shifted (m k : Nat) : Nat :=
  let q := m >>> k
  if m.testBit (k - 1) && (q % 2 == 1 || m % (1 <<< (k - 1)) != 0) then q + 1 else q

end Rounding

/-- A value of the binary format with five exponent bits and ten mantissa bits. -/
structure Half where
  bits : UInt16
  deriving DecidableEq, Inhabited

namespace Half

@[reducible] def format : Format := { mantissaBitsWithoutImplicit := 10, exponentBits := 5 }

def ofSingle (x : Float32) : Half := ⟨⟨Rounding.ofSingle format x⟩⟩

def toSingle (x : Half) : Float32 := Rounding.toSingle format x.bits.toBitVec

/-- A double is rounded to single precision first. -/
def ofDouble (x : Float) : Half := ofSingle x.toFloat32

def toDouble (x : Half) : Float := x.toSingle.toFloat

def neg (x : Half) : Half := ⟨x.bits ^^^ 0x8000⟩

def isSubnormal (x : Half) : Bool := (x.bits &&& 0x7c00) == 0 && (x.bits &&& 0x03ff) != 0

end Half

/-- A value of the binary format with eight exponent bits and seven mantissa bits, the upper
half of a single. -/
structure Bfloat where
  bits : UInt16
  deriving DecidableEq, Inhabited

namespace Bfloat

@[reducible] def format : Format := { mantissaBitsWithoutImplicit := 7, exponentBits := 8 }

def ofSingle (x : Float32) : Bfloat := ⟨⟨Rounding.ofSingle format x⟩⟩

def toSingle (x : Bfloat) : Float32 := Rounding.toSingle format x.bits.toBitVec

/-- A double is rounded to nearest even by its upper word alone: the 32 low mantissa bits never
break a tie. They only tell NaN from infinity. -/
def ofDouble (x : Float) : Bfloat :=
  let word := (x.toBits >>> 32).toNat
  let sign := if word.testBit 31 then 0x8000 else 0
  let exponent := word >>> 20 % 2048
  let mantissa := word % 0x100000
  if x.isNaN then ⟨0x7fc0⟩
  else if exponent ≥ 1023 - 127 + 255 then ⟨(sign + 0x7f80).toUInt16⟩
  else if exponent > 1023 - 127 then
    let biased := exponent - (1023 - 127)
    ⟨(sign + (biased <<< 7 + Rounding.shifted mantissa 13)).toUInt16⟩
  else
    let below := 1023 - 127 - exponent
    if 7 + below > 21 then ⟨sign.toUInt16⟩
    else ⟨(sign + Rounding.shifted (0x100000 + mantissa) (14 + below)).toUInt16⟩

def toDouble (x : Bfloat) : Float := x.toSingle.toFloat

def neg (x : Bfloat) : Bfloat := ⟨x.bits ^^^ 0x8000⟩

def isSubnormal (x : Bfloat) : Bool := (x.bits &&& 0x7f80) == 0 && (x.bits &&& 0x007f) != 0

end Bfloat

namespace Scalar

/-- Arithmetic by way of single precision, rounding every result back. -/
@[reducible] def viaSingle (α : Type) (up : α → Float32) (down : Float32 → α) (neg : α → α)
    (isSubnormal : α → Bool) (toDouble : α → Float) (ofDouble : Float → α) : Scalar α where
  zero := down 0.0
  one := down 1.0
  add a b := down (up a + up b)
  sub a b := down (up a - up b)
  mul a b := down (up a * up b)
  div a b := down (up a / up b)
  max a b := down (Single.max (up a) (up b))
  min a b := down (Single.min (up a) (up b))
  pow a b := down (Float32.pow (up a) (up b))
  neg := neg
  abs a := down (up a).abs
  relu a := down (Single.max (up a) 0.0)
  exp a := down (up a).exp
  log a := down (up a).log
  sqrt a := down (up a).sqrt
  tanh a := down (up a).tanh
  sigmoid a := down (Single.logistic (up a))
  fastExp a := down (Single.fastExp (up a))
  flush a := if isSubnormal a then down 0.0 else a
  toDouble := toDouble
  ofDouble := ofDouble
  same a b := up a == up b
  isNaN a := (up a).isNaN

instance : Scalar Half :=
  viaSingle Half Half.toSingle Half.ofSingle Half.neg Half.isSubnormal Half.toDouble Half.ofDouble

instance : Scalar Bfloat :=
  viaSingle Bfloat Bfloat.toSingle Bfloat.ofSingle Bfloat.neg Bfloat.isSubnormal Bfloat.toDouble
    Bfloat.ofDouble

end Scalar

end TensorGraph
