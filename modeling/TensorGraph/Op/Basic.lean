import TensorGraph.Error
import TensorGraph.Place

/-!
The operations of a graph. Elementwise functions appear twice: as operations of their own, and
as steps of a fused expression, which one kernel evaluates as a whole.
-/

namespace TensorGraph

/-- Elementwise functions of one operand. -/
inductive Unary where
  | neg
  | abs
  | relu
  | exp
  | log
  | sqrt
  | tanh
  | sigmoid
  deriving DecidableEq, Repr, Inhabited

namespace Unary

def all : List Unary := [neg, abs, relu, exp, log, sqrt, tanh, sigmoid]

def name : Unary → String
  | neg => "neg"
  | abs => "abs"
  | relu => "relu"
  | exp => "exp"
  | log => "log"
  | sqrt => "sqrt"
  | tanh => "tanh"
  | sigmoid => "sigmoid"

def tag : Unary → String
  | neg => "Neg"
  | abs => "Abs"
  | relu => "Relu"
  | exp => "Exp"
  | log => "Log"
  | sqrt => "Sqrt"
  | tanh => "Tanh"
  | sigmoid => "Sigmoid"

/-- Functions defined on floats only. A graph casts integers before applying them. -/
def isTranscendental : Unary → Bool
  | exp | log | sqrt | tanh | sigmoid => true
  | neg | abs | relu => false

/-- Whether the function is defined on elements of `kind`, else the reason. -/
def accepts (u : Unary) (kind : Kind) : Except String Unit :=
  if u = neg ∧ ¬ kind.isSigned then .error ("neg is undefined for unsigned " ++ kind.name)
  else if u.isTranscendental ∧ ¬ kind.isFloat then
    .error (u.name ++ " needs a float input, got " ++ kind.name)
  else .ok ()

end Unary

/-- Elementwise functions of two operands. -/
inductive Binary where
  | add
  | sub
  | mul
  | div
  | max
  | min
  | pow
  deriving DecidableEq, Repr, Inhabited

namespace Binary

def all : List Binary := [add, sub, mul, div, max, min, pow]

def name : Binary → String
  | add => "add"
  | sub => "sub"
  | mul => "mul"
  | div => "div"
  | max => "max"
  | min => "min"
  | pow => "pow"

def tag : Binary → String
  | add => "Add"
  | sub => "Sub"
  | mul => "Mul"
  | div => "Div"
  | max => "Max"
  | min => "Min"
  | pow => "Pow"

/-- Functions whose operands may be exchanged. -/
def isCommutative : Binary → Bool
  | add | mul | max | min => true
  | sub | div | pow => false

end Binary

/-- Ways to combine the elements along an axis. -/
inductive Reduction where
  | sum
  | max
  | min
  | mean
  deriving DecidableEq, Repr, Inhabited

namespace Reduction

def name : Reduction → String
  | sum => "sum"
  | max => "max_reduce"
  | min => "min_reduce"
  | mean => "mean"

end Reduction

/-- One step of a fused expression. Operands are numbers of earlier steps. -/
inductive Step where
  | load (input : Nat)
  | unary (f : Unary) (a : Nat)
  | binary (f : Binary) (a b : Nat)
  deriving DecidableEq, Repr, Inhabited

/-- The step with its structure. -/
def Step.shown : Step → String
  | load k => s!"Input({k})"
  | unary f a => "Unary(" ++ f.tag ++ s!", {a})"
  | binary f a b => "Binary(" ++ f.tag ++ s!", {a}, {b})"

/-- An elementwise expression evaluated by one kernel. The last step is the result. -/
structure Expr where
  steps : List Step
  inputs : Nat
  deriving DecidableEq, Repr, Inhabited

namespace Expr

/-- Whether step `i` is defined on `kind` and refers to inputs and earlier steps only. -/
def checkStep (inputs : Nat) (kind : Kind) (i : Nat) (step : Step) : Except String Unit := do
  let inRange ← match step with
    | .load k => pure (decide (k < inputs))
    | .unary f a => do
      f.accepts kind
      pure (decide (a < i))
    | .binary _ a b => pure (decide (a < i ∧ b < i))
  if inRange then .ok () else .error (s!"instruction {i} (" ++ step.shown ++ ") is out of range")

/-- Checks the steps from number `i` on. -/
def checkFrom (inputs : Nat) (kind : Kind) : Nat → List Step → Except String Unit
  | _, [] => .ok ()
  | i, step :: steps => do
    checkStep inputs kind i step
    checkFrom inputs kind (i + 1) steps

/-- Whether the expression can be evaluated on elements of `kind`, else the reason. -/
def check (e : Expr) (kind : Kind) : Except String Unit :=
  if e.steps.isEmpty then .error "empty fused expression" else checkFrom e.inputs kind 0 e.steps

/-- Step `i` in function notation. The depth is bounded: an expression that needs more steps
than it has refers to itself. -/
def describeStep? (steps : List Step) : Nat → Nat → Option String
  | 0, _ => none
  | depth + 1, i =>
    match steps[i]? with
    | none => none
    | some (.load k) => some s!"in{k}"
    | some (.unary f a) => do
      let x ← describeStep? steps depth a
      some (f.name ++ "(" ++ x ++ ")")
    | some (.binary f a b) => do
      let x ← describeStep? steps depth a
      let y ← describeStep? steps depth b
      some (f.name ++ "(" ++ x ++ ", " ++ y ++ ")")

/-- The expression in function notation, such as `add(exp(in0), in1)`. -/
def describe? (e : Expr) : Option String :=
  if e.steps.isEmpty then some ""
  else describeStep? e.steps e.steps.length (e.steps.length - 1)

end Expr

/-- Kinds of work a device declares support for. -/
inductive Capability where
  | elementwise
  | reduction
  | linearAlgebra
  | transfer
  | indexing
  deriving DecidableEq, Repr, Inhabited

namespace Capability

def all : List Capability := [elementwise, reduction, linearAlgebra, transfer, indexing]

def name : Capability → String
  | elementwise => "elementwise"
  | reduction => "reduction"
  | linearAlgebra => "linear-algebra"
  | transfer => "transfer"
  | indexing => "indexing"

end Capability

/-- Operations that one kernel serves. -/
inductive Family where
  | unary
  | binary
  | cast
  | fused
  | reduce
  | matmul
  | transfer
  | reshape
  | transpose
  deriving DecidableEq, Repr, Inhabited

namespace Family

def all : List Family :=
  [unary, binary, cast, fused, reduce, matmul, transfer, reshape, transpose]

def tag : Family → String
  | unary => "Unary"
  | binary => "Binary"
  | cast => "Cast"
  | fused => "Fused"
  | reduce => "Reduce"
  | matmul => "MatMul"
  | transfer => "Transfer"
  | reshape => "Reshape"
  | transpose => "Transpose"

def capability : Family → Capability
  | unary | binary | cast | fused => .elementwise
  | reduce => .reduction
  | matmul => .linearAlgebra
  | transfer => .transfer
  | reshape | transpose => .indexing

end Family

/-- An operation of a graph. -/
inductive Op where
  | unary (f : Unary)
  | binary (f : Binary)
  | cast (kind : Kind)
  | fused (expr : Expr)
  /-- Combines along an axis, or over every element when there is none. -/
  | reduce (f : Reduction) (axis : Option Nat)
  /-- Product of `m × k` and `k × n` matrices, or of two batches of them. -/
  | matmul
  | toDevice (ordinal : Nat)
  | toHost
  | reshape (shape : List Nat)
  | transpose (perm : List Nat)
  deriving DecidableEq, Repr, Inhabited

namespace Op

def name : Op → String
  | unary f => f.name
  | binary f => f.name
  | cast _ => "cast"
  | fused _ => "fused"
  | reduce f _ => f.name
  | matmul => "matmul"
  | toDevice _ => "to_device"
  | toHost => "to_host"
  | reshape _ => "reshape"
  | transpose _ => "transpose"

def family : Op → Family
  | unary _ => .unary
  | binary _ => .binary
  | cast _ => .cast
  | fused _ => .fused
  | reduce .. => .reduce
  | matmul => .matmul
  | toDevice _ | toHost => .transfer
  | reshape _ => .reshape
  | transpose _ => .transpose

def capability (op : Op) : Capability := op.family.capability

def isTransfer : Op → Bool
  | toDevice _ | toHost => true
  | _ => false

/-- Operations that a fused expression can hold. -/
def isFusable : Op → Bool
  | unary _ | binary _ | fused _ => true
  | _ => false

/-- Operations that move elements without changing them. -/
def isLayout : Op → Bool
  | reshape _ | transpose _ => true
  | _ => false

/-- The transfer that brings a value to `dest`. -/
def transferTo : Location → Op
  | .host => toHost
  | .device n => toDevice n

def arity : Op → Nat
  | binary _ | matmul => 2
  | fused e => e.inputs
  | _ => 1

/-- Whether the operation is defined on elements of `kind` at all, else the reason. -/
def accepts (op : Op) (kind : Kind) : Except String Unit :=
  match op with
  | unary f => f.accepts kind
  | fused e => e.check kind
  | reduce .mean _ =>
    if kind.isFloat then .ok () else .error ("mean needs a float input, got " ++ kind.name)
  | _ => .ok ()

/-- The operation with its parameters. A fused expression that refers outside itself has no
such text. -/
def describe? : Op → Option String
  | cast k => some ("cast<" ++ k.name ++ ">")
  | fused e => e.describe?.map fun d => "fused[" ++ d ++ "]"
  | reduce f (some axis) => some (f.name ++ s!"(axis={axis})")
  | toDevice n => some s!"to_device{n}"
  | reshape shape => some ("reshape" ++ Text.numbers shape)
  | transpose perm => some ("transpose" ++ Text.numbers perm)
  | op => some op.name

/-- The text of an operation whose expression, if it has one, was checked. -/
def text (op : Op) : String := op.describe?.getD op.name

end Op

end TensorGraph
