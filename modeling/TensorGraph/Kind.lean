/-!
The element kinds a tensor can hold: integers by width and sign, and binary floating-point
formats by width.
-/

namespace TensorGraph

/-- Element kind of a value. -/
inductive Kind where
  | u8
  | u32
  | i32
  | i64
  | f16
  | bf16
  | f32
  | f64
  deriving DecidableEq, Repr, Hashable, Inhabited

namespace Kind

/-- Every kind, in the order in which sets of kinds are listed. -/
def all : List Kind := [u8, u32, i32, i64, f16, bf16, f32, f64]

theorem mem_all (k : Kind) : k ∈ all := by cases k <;> decide

/-- Width in bytes. -/
def bytes : Kind → Nat
  | u8 => 1
  | f16 | bf16 => 2
  | u32 | i32 | f32 => 4
  | i64 | f64 => 8

/-- Width in bits. -/
def bits (k : Kind) : Nat := k.bytes * 8

def isFloat : Kind → Bool
  | f16 | bf16 | f32 | f64 => true
  | u8 | u32 | i32 | i64 => false

def isSigned : Kind → Bool
  | u8 | u32 => false
  | i32 | i64 | f16 | bf16 | f32 | f64 => true

/-- Bits of integer precision that the kind represents exactly. -/
def precision : Kind → Nat
  | u8 => 8
  | u32 => 32
  | i32 => 31
  | i64 => 63
  | f16 => 11
  | bf16 => 8
  | f32 => 24
  | f64 => 53

/-- The name used in types and messages. -/
def name : Kind → String
  | u8 => "u8"
  | u32 => "u32"
  | i32 => "i32"
  | i64 => "i64"
  | f16 => "f16"
  | bf16 => "bf16"
  | f32 => "f32"
  | f64 => "f64"

/-- The name in capitals, used when values are shown with their structure. -/
def tag : Kind → String
  | u8 => "U8"
  | u32 => "U32"
  | i32 => "I32"
  | i64 => "I64"
  | f16 => "F16"
  | bf16 => "BF16"
  | f32 => "F32"
  | f64 => "F64"

/-- The kind of that name. -/
def ofName? (name : String) : Option Kind := all.find? fun k => k.name == name

instance : ToString Kind := ⟨name⟩

/-- The C type that generated kernels use for elements of the kind. -/
def cType : Kind → String
  | u8 => "uint8_t"
  | u32 => "uint32_t"
  | i32 => "int"
  | i64 => "int64_t"
  | f16 => "__half"
  | bf16 => "__nv_bfloat16"
  | f32 => "float"
  | f64 => "double"

/-- The include line that declares the C type, for types C does not have. -/
def cHeader? : Kind → Option String
  | f16 => some "#include \"cuda_fp16.h\""
  | bf16 => some "#include \"cuda_bf16.h\""
  | _ => none

theorem ofName?_name (k : Kind) : ofName? k.name = some k := by cases k <;> decide

end Kind

end TensorGraph
