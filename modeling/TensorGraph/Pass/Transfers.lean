import TensorGraph.Context
import TensorGraph.Pass.Rebuild

/-!
Removal of needless transfers. A value that goes to where it is, or back to where it came from,
is not moved, equal transfers are merged, and when a transferred value is only reshaped or
transposed before it goes back, that is done where it came from.
-/

namespace TensorGraph.Transfers

/-- A value equal to `x` at `dest` that needs no new transfer, if there is one. -/
def simplify (c : Context) (x : VarId) (dest : Location) : Rebuilding (Option VarId) := do
  if (← Rebuild.place x) = some dest then return some x
  let g := (← get).graph
  let some producer := g.producer? x | return none
  if producer.op.isTransfer then
    let some y := producer.inputs.head? | throw .crash
    return if (← Rebuild.place y) = some dest then some y else none
  if !producer.op.isLayout then return none
  let some middle := producer.inputs.head? | throw .crash
  let some inner := g.producer? middle | return none
  if !inner.op.isTransfer then return none
  let some w := inner.inputs.head? | throw .crash
  if (← Rebuild.place w) ≠ some dest then return none
  let kind := (← g.ty w).kind
  if ((← c.table dest).supports producer.op [kind]).isOk then
    return some (← Rebuild.emit producer.op [w] (some dest) none)
  return none

/-- The new form of one operation. -/
def step (c : Context) (p : Program) (n : Node) : Rebuilding Unit := do
  match n.op.isTransfer, n.place, n.inputs with
  | true, some dest, input :: _ =>
    let x ← Rebuild.read p input
    let v ← match ← Rebuild.known? (.transferTo dest) [x] with
      | some v => pure v
      | none => match ← simplify c x dest with
        | some v => pure v
        | none => Rebuild.emit n.op [x] n.place none
    Rebuild.note (.transferTo dest) [x] v
    Rebuild.bind n.output v
  | _, _, _ => Rebuild.copy p n

/-- One round over the whole program. -/
def sweep (c : Context) (p : Program) : Except Error Program := do
  (← p.rebuild (step c p)).prune

/-- Most rounds after the first. -/
def maxRounds : Nat := 16

/-- Repeats rounds until one changes neither the number of operations nor that of transfers. -/
def settle (c : Context) : Nat → Program → Except Error Program
  | 0, p => .ok p
  | rounds + 1, p => do
    let next ← sweep c p
    if next.nodeCount = p.nodeCount ∧ next.transferCount = p.transferCount then return next
    settle c rounds next

/-- The program without needless transfers. -/
def run (c : Context) (p : Program) : Except Error Program := do
  settle c maxRounds (← sweep c p)

end TensorGraph.Transfers
