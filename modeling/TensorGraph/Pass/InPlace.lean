import TensorGraph.Context
import TensorGraph.Pass.Rebuild

/-!
In-place marks: an elementwise operation may write its result over an operand of the same type
that is the result of another operation and that nobody reads later.
-/

namespace TensorGraph.InPlace

/-- The last of the operations that reads a variable. -/
def lastReader? (order : List Node) (v : VarId) : Option Node :=
  (order.filter fun n => n.inputs.contains v).getLast?

/-- Whether a variable is the upload of a constant, which later calls use again. -/
def isUpload (g : Graph) (producer : Node) : Bool :=
  producer.op.isTransfer && producer.inputs.head?.any fun x =>
    (g.vars[x]?.bind Var.constant?).isSome

/-- Whether operation `n` may overwrite its operand `v`. -/
def overwritable (p : Program) (order : List Node) (n : Node) (out : Ty) (v : VarId) : Bool :=
  match p.graph.producer? v, p.graph.vars[v]? with
  | some producer, some x =>
    !isUpload p.graph producer && !p.isRoot v && x.ty.kind == out.kind && x.ty.rank == out.rank
      && (lastReader? order v).any fun r => r.id == n.id
  | _, _ => false

/-- Number of the operand that an operation overwrites. -/
def target? (c : Context) (p : Program) (order : List Node) (n : Node) :
    Except Error (Option Nat) :=
  match n.op.isTransfer || n.op.capability != .elementwise, n.place with
  | false, some place => do
    let table ← c.table place
    if !table.supportsInPlace .elementwise then return none
    let out ← p.graph.ty n.output
    return n.inputs.findIdx? (overwritable p order n out)
  | _, _ => .ok none

/-- The new form of one operation. -/
def step (c : Context) (p : Program) (order : List Node) (n : Node) : Rebuilding Unit := do
  let inPlace ← target? c p order n
  let inputs ← Rebuild.readAll p n.inputs
  Rebuild.bind n.output (← Rebuild.emit n.op inputs n.place inPlace)

/-- The program with in-place marks. -/
def run (c : Context) (p : Program) : Except Error Program := do
  let order ← p.order
  p.rebuild (step c p order)

end TensorGraph.InPlace
