import TensorGraph.Context
import TensorGraph.Pass.Rebuild

/-!
Placement: every live operation goes to the accelerator if the accelerator can run it, else to the
host if the fallback policy allows, and a transfer stands wherever a value is needed on the other
side. Leaves are on the host.
-/

namespace TensorGraph.Placement

/-- The program with its leaves on the host. -/
def hostLeaves (p : Program) : Program :=
  { p with graph.vars := p.graph.vars.map fun x =>
      if x.isLeaf then { x with ty := x.ty.placed (some .host) } else x }

/-- A value as seen from `dest`. There is one transfer for each value and destination. -/
def moved (dest : Location) (v : VarId) : Rebuilding VarId := do
  if (← Rebuild.place v).getD .host = dest then return v
  if let some t ← Rebuild.known? (.transferTo dest) [v] then return t
  let t ← Rebuild.emit (.transferTo dest) [v] (some dest) none
  Rebuild.note (.transferTo dest) [v] t
  return t

/-- Where an explicit transfer leads. An accelerator that is not the target stands for the host. -/
def destination? (target : Location) : Op → Option Location
  | .toHost => some .host
  | .toDevice n => some (if Location.device n = target then target else .host)
  | _ => none

/-- The list without items that are equal to the one before. -/
def dropRepeats : List Kind → List Kind
  | a :: b :: ks => if a = b then dropRepeats (b :: ks) else a :: dropRepeats (b :: ks)
  | ks => ks

/-- The kinds of all operands and of the result. -/
def kindsOf (g : Graph) (n : Node) : Except Error (List Kind) := do
  let inputs ← g.tys n.inputs
  let output ← g.ty n.output
  return dropRepeats (inputs.map Ty.kind ++ [output.kind])

/-- Whether the device of a table can run an operation. -/
def admits (t : Table) (n : Node) (kinds : List Kind) : Except Error Unit :=
  match t.supports n.op kinds with
  | .ok _ => .ok ()
  | .error reason => .error (.placement n.label n.op.text t.name reason)

/-- Where an operation runs. -/
def choose (c : Context) (g : Graph) (n : Node) : Except Error Location := do
  let kinds ← kindsOf g n
  let preferred := admits (← c.table c.target) n kinds
  if preferred.isOk then return c.target
  if c.target.isHost ∨ c.config.fallback = .strict then
    preferred
    return c.target
  admits (← c.table .host) n kinds
  return .host

/-- The new form of one operation. -/
def step (c : Context) (p : Program) (n : Node) : Rebuilding Unit := do
  match destination? c.target n.op, n.inputs with
  | some dest, x :: _ => Rebuild.bind n.output (← moved dest (← Rebuild.read p x))
  | some _, [] => throw .crash
  | none, _ =>
    let place ← choose c p.graph n
    let inputs ← n.inputs.mapM fun v => do moved place (← Rebuild.read p v)
    Rebuild.bind n.output (← Rebuild.emit n.op inputs (some place) n.inPlace)

/-- The program with every operation placed. -/
def run (c : Context) (p : Program) : Except Error Program :=
  let p := hostLeaves p
  p.rebuild (step c p)

end TensorGraph.Placement
