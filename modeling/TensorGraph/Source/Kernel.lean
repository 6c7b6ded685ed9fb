import TensorGraph.Source.Expression

/-!
Source text of elementwise kernels. Each step of a fused expression becomes one line that
declares its register; the other operations are a single expression.
-/

namespace TensorGraph.Source

/-- A generated kernel before it is given a name. -/
structure KernelSource where
  /-- What the name starts with. -/
  stem : String
  kind : Kind
  outKind : Kind
  inputs : Nat
  /-- The value of each register, in order. -/
  body : List CExpr
  result : CExpr
  deriving DecidableEq, Repr, Inhabited

namespace KernelSource

/-- Input `k` at the current place, or its only element. -/
def loadOf (scalars : List Bool) (k : Nat) : CExpr := .load k (scalars[k]?.getD false)

/-- The value of one step's register. -/
def ofStep (kind : Kind) (scalars : List Bool) : Step → CExpr
  | .load k => loadOf scalars k
  | .unary f a => CExpr.unary f kind (.register a)
  | .binary f a b => CExpr.binary f kind (.register a) (.register b)

/-- The kernel of an elementwise operation on elements of `kind`. An entry of `scalars` marks an
input of a single element. Other operations have no generated kernel. -/
def of? (op : Op) (kind outKind : Kind) (scalars : List Bool) : Option KernelSource :=
  let load := loadOf scalars
  let simple (result : CExpr) : Option KernelSource :=
    some { stem := op.name, kind, outKind, inputs := op.arity, body := [], result }
  match op with
  | .unary f => simple (CExpr.unary f kind (load 0))
  | .binary f => simple (CExpr.binary f kind (load 0) (load 1))
  | .cast k => simple (CExpr.cast kind k (load 0))
  | .fused expr =>
    if expr.steps.isEmpty then none
    else some {
      stem := op.name, kind, outKind, inputs := op.arity
      body := expr.steps.map (ofStep kind scalars)
      result := .register (expr.steps.length - 1) }
  | _ => none

/-- The include lines that the two kinds need, each once. -/
def includes (k : KernelSource) : List String :=
  ([k.kind, k.outKind].filterMap Kind.cHeader?).eraseDups

/-- The declaration of input `k`. -/
def inputText (kind : Kind) (k : Nat) : String := "const " ++ kind.cType ++ s!" *in{k}"

/-- The parameters: inputs, output and number of elements. -/
def params (k : KernelSource) : List String :=
  (List.range k.inputs).map (inputText k.kind) ++
    [k.outKind.cType ++ " *out", "const size_t numel"]

/-- The line that declares register `n`. -/
def lineText (kind : Kind) (n : Nat) (value : CExpr) : String :=
  "const " ++ kind.cType ++ s!" r{n} = " ++ value.text ++ ";"

/-- The lines of the body. -/
def bodyLines (k : KernelSource) : List String := k.body.mapIdx (lineText k.kind)

/-- The source under a name. -/
def render (k : KernelSource) (name : String) : String :=
  "\n".intercalate [
    "",
    "            typedef unsigned char uint8_t;",
    "            typedef unsigned int uint32_t;",
    "            typedef long long int int64_t;",
    "            " ++ "\n".intercalate k.includes,
    "",
    "            extern \"C\" __global__ void " ++ name
      ++ "(" ++ ", ".intercalate k.params ++ ") \x7b",
    "                for (size_t i = blockIdx.x * blockDim.x + threadIdx.x; i < numel;",
    "                    i += (size_t)blockDim.x * gridDim.x) \x7b",
    "                    " ++ "\n                    ".intercalate k.bodyLines,
    "                    out[i] = " ++ k.result.text ++ ";",
    "                \x7d",
    "            \x7d",
    "            "]

end KernelSource

end TensorGraph.Source
