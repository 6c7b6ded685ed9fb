import TensorGraph.Op.Basic

/-!
The C expressions that generated kernels are made of. Arithmetic on floats, and functions on any
kind, widen to double precision and narrow the result; integer arithmetic stays in its type.
-/

namespace TensorGraph.Source

/-- A C expression. -/
inductive CExpr where
  /-- An element of input `k`: the first one, or the one at the current place. -/
  | load (k : Nat) (first : Bool)
  | register (n : Nat)
  | number (text : String)
  | grouped (e : CExpr)
  | negated (e : CExpr)
  | converted (type : String) (e : CExpr)
  | call (f : String) (e : CExpr)
  | call2 (f : String) (a b : CExpr)
  | operator (symbol : String) (a b : CExpr)
  | choice (cond yes no : CExpr)
  deriving DecidableEq, Repr, Inhabited

namespace CExpr

def text : CExpr → String
  | load k first => s!"in{k}[" ++ (if first then "0" else "i") ++ "]"
  | register n => s!"r{n}"
  | number t => t
  | grouped e => "(" ++ e.text ++ ")"
  | negated e => "-" ++ e.text
  | converted t e => "static_cast<" ++ t ++ ">(" ++ e.text ++ ")"
  | call f e => f ++ "(" ++ e.text ++ ")"
  | call2 f a b => f ++ "(" ++ a.text ++ ", " ++ b.text ++ ")"
  | operator s a b => a.text ++ " " ++ s ++ " " ++ b.text
  | choice c y n => "(" ++ c.text ++ " ? " ++ y.text ++ " : " ++ n.text ++ ")"

/-- The registers an expression reads. -/
def registers : CExpr → List Nat
  | register n => [n]
  | load .. | number _ => []
  | grouped e | negated e | converted _ e | call _ e => e.registers
  | call2 _ a b | operator _ a b => a.registers ++ b.registers
  | choice c y n => c.registers ++ y.registers ++ n.registers

/-- The inputs an expression loads, and whether it takes their first element. -/
def loads : CExpr → List (Nat × Bool)
  | load k first => [(k, first)]
  | register _ | number _ => []
  | grouped e | negated e | converted _ e | call _ e => e.loads
  | call2 _ a b | operator _ a b => a.loads ++ b.loads
  | choice c y n => c.loads ++ y.loads ++ n.loads

/-- The value in double precision. -/
def widened (kind : Kind) (x : CExpr) : CExpr :=
  match kind with
  | .f64 => grouped x
  | .f16 | .bf16 | .f32 => converted "double" (converted "float" x)
  | _ => converted "double" x

/-- A value in double precision, converted back to the kind. -/
def narrowed (kind : Kind) (v : CExpr) : CExpr :=
  match kind with
  | .f16 => call "__float2half" (converted "float" v)
  | .bf16 => call "__float2bfloat16" (converted "float" v)
  | k => converted k.cType v

/-- A function of double precision applied to an element. -/
def viaDouble (kind : Kind) (f : String) (x : CExpr) : CExpr :=
  narrowed kind (call f (widened kind x))

/-- A unary operation on an element of `kind`. -/
def unary (f : Unary) (kind : Kind) (x : CExpr) : CExpr :=
  let t := kind.cType
  let g := grouped x
  match f with
  | .neg =>
    if kind.isFloat then narrowed kind (negated (widened kind x)) else converted t (negated g)
  | .abs =>
    if kind.isFloat then viaDouble kind "fabs" x
    else if kind.isSigned then
      choice (operator "<" g (number "0")) (converted t (negated g)) g
    else g
  | .relu =>
    if kind.isFloat then narrowed kind (call2 "fmax" (widened kind x) (number "0.0"))
    else choice (operator ">" g (number "0")) g (converted t (number "0"))
  | .exp => viaDouble kind "exp" x
  | .log => viaDouble kind "log" x
  | .sqrt => viaDouble kind "sqrt" x
  | .tanh => viaDouble kind "tanh" x
  | .sigmoid =>
    narrowed kind (operator "/" (number "1.0")
      (grouped (operator "+" (number "1.0") (call "exp" (negated (widened kind x))))))

/-- A binary operation on floats of `kind`. -/
def binaryFloat (f : Binary) (kind : Kind) (a b : CExpr) : CExpr :=
  let x := widened kind a
  let y := widened kind b
  narrowed kind <|
    match f with
    | .add => operator "+" x y
    | .sub => operator "-" x y
    | .mul => operator "*" x y
    | .div => operator "/" x y
    | .max => call2 "fmax" x y
    | .min => call2 "fmin" x y
    | .pow => call2 "pow" x y

/-- A binary operation on integers of `kind`. Division by zero gives zero. -/
def binaryInteger (f : Binary) (kind : Kind) (a b : CExpr) : CExpr :=
  let t := kind.cType
  let x := grouped a
  let y := grouped b
  match f with
  | .add => converted t (operator "+" x y)
  | .sub => converted t (operator "-" x y)
  | .mul => converted t (operator "*" x y)
  | .div =>
    choice (operator "==" y (number "0"))
      (converted t (number "0")) (converted t (operator "/" x y))
  | .max => choice (operator ">" x y) x y
  | .min => choice (operator "<" x y) x y
  | .pow => converted t (call2 "pow" (widened kind a) (widened kind b))

/-- A binary operation on elements of `kind`. -/
def binary (f : Binary) (kind : Kind) (a b : CExpr) : CExpr :=
  if kind.isFloat then binaryFloat f kind a b else binaryInteger f kind a b

/-- Conversion of an element to another kind. -/
def cast (source target : Kind) (x : CExpr) : CExpr :=
  if source.isFloat || target.isFloat then narrowed target (widened source x)
  else converted target.cType x

end CExpr

end TensorGraph.Source
