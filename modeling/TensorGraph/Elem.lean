import TensorGraph.Kind
import TensorGraph.Scalar.Narrow

/-!
The elements of each kind, and their arithmetic chosen by the kind.
-/

namespace TensorGraph

/-- The values of a kind. -/
@[reducible] def Elem : Kind → Type
  | .u8 => UInt8
  | .u32 => UInt32
  | .i32 => Int32
  | .i64 => Int64
  | .f16 => Half
  | .bf16 => Bfloat
  | .f32 => Float32
  | .f64 => Float

namespace Elem

@[reducible] def scalar : (k : Kind) → Scalar (Elem k)
  | .u8 => inferInstanceAs (Scalar UInt8)
  | .u32 => inferInstanceAs (Scalar UInt32)
  | .i32 => inferInstanceAs (Scalar Int32)
  | .i64 => inferInstanceAs (Scalar Int64)
  | .f16 => inferInstanceAs (Scalar Half)
  | .bf16 => inferInstanceAs (Scalar Bfloat)
  | .f32 => inferInstanceAs (Scalar Float32)
  | .f64 => inferInstanceAs (Scalar Float)

instance (k : Kind) : Scalar (Elem k) := scalar k

/-- Converts an element to another kind by way of double precision. -/
def convert {source : Kind} (target : Kind) (x : Elem source) : Elem target :=
  Scalar.ofDouble (Scalar.toDouble x)

/-- The bits of an element as a number. -/
def bits : {k : Kind} → Elem k → Nat
  | .u8, x => x.toNat
  | .u32, x => x.toNat
  | .i32, x => x.toUInt32.toNat
  | .i64, x => x.toUInt64.toNat
  | .f16, x => (Half.bits x).toNat
  | .bf16, x => (Bfloat.bits x).toNat
  | .f32, x => x.toBits.toNat
  | .f64, x => x.toBits.toNat

/-- The element with those bits, of which the kind takes as many as it is wide. -/
def ofBits : (k : Kind) → Nat → Elem k
  | .u8, n => n.toUInt8
  | .u32, n => n.toUInt32
  | .i32, n => n.toUInt32.toInt32
  | .i64, n => n.toUInt64.toInt64
  | .f16, n => ⟨n.toUInt16⟩
  | .bf16, n => ⟨n.toUInt16⟩
  | .f32, n => Float32.ofBits n.toUInt32
  | .f64, n => Float.ofBits n.toUInt64

end Elem

end TensorGraph
