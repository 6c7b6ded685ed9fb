import TensorGraph.Pass.Pipeline

/-!
Schedules: the commands of an executable in the order in which they run, and the slots that
hold the buffers of its values. A value that overwrites another shares its slot.
-/

namespace TensorGraph

/-- Number of a slot of an executable. -/
abbrev SlotId := Nat

/-- A value as a call sees it: the variable that gives its shape and the slot that holds its
buffer. -/
structure Site where
  var : VarId
  slot : SlotId
  deriving DecidableEq, Repr, Inhabited

/-- What a command does. -/
inductive Work where
  /-- Moves a value between devices. A kept one is done by the first call only. -/
  | transfer (kept : Bool)
  | launch (kernel : Kernel)

/-- One command of a schedule. -/
structure Command where
  node : NodeId
  /-- The name of the operation in messages. -/
  label : String
  op : Op
  location : Location
  kind : Kind
  inputs : List Site
  output : Site
  /-- Number of the input whose buffer the output overwrites. -/
  inPlace : Option Nat
  work : Work
  math : MathMode

/-- Whether the command is the upload of a constant that later calls use again. -/
def Command.isKept (c : Command) : Bool :=
  match c.work with
  | .transfer kept => kept
  | .launch _ => false

/-- The slot of each variable. -/
structure Layout where
  slot : VarId → Option SlotId := fun _ => none
  /-- Number of slots. -/
  count : Nat := 0

namespace Layout

/-- Gives a variable the next slot, unless it has one. -/
def assign (l : Layout) (v : VarId) : Layout :=
  match l.slot v with
  | some _ => l
  | none => ⟨fun x => if x = v then some l.count else l.slot x, l.count + 1⟩

def assignAll (l : Layout) (vs : List VarId) : Layout := vs.foldl assign l

/-- The slot of a variable with the variable. -/
def site (l : Layout) (v : VarId) : Except Error Site :=
  match l.slot v with
  | some slot => .ok ⟨v, slot⟩
  | none => .error (.message (varName v ++ " has no slot"))

/-- Gives a variable the slot of another. -/
def share (l : Layout) (v other : VarId) : Except Error Layout := do
  let s ← l.site other
  return { l with slot := fun x => if x = v then some s.slot else l.slot x }

/-- Gives slots to the operands and the result of an operation. -/
def addNode (l : Layout) (n : Node) : Except Error Layout :=
  let l := l.assignAll n.inputs
  match n.inPlace with
  | some i => do l.share n.output (← Kernel.item n.inputs i)
  | none => .ok (l.assign n.output)

/-- The slots of a program whose operations run in the given order. -/
def build (p : Program) (order : List Node) : Except Error Layout := do
  let l ← order.foldlM addNode (({} : Layout).assignAll p.inputs)
  return l.assignAll p.roots

end Layout

/-- The immutable part of an executable. -/
structure Schedule where
  program : Program
  report : List PassReport
  commands : List Command
  /-- Number of reads of each slot in one call. -/
  reads : Array Nat
  /-- Slots that keep their buffer from call to call. -/
  pinned : Array Bool
  inputs : List (Site × Ty)
  constants : List (Site × Tensor)
  cells : List (Site × Cell)
  outputs : List Site
  updates : List (Cell × Site)

namespace Schedule

/-- What an operation does when it runs. -/
def workOf (c : Context) (g : Graph) (n : Node) : Except Error Work :=
  match n.op with
  | .toDevice _ => do
    match n.inputs with
    | [] => throw .crash
    | x :: _ => return .transfer (← g.var x).constant?.isSome
  | .toHost => .ok (.transfer false)
  | op => .launch <$> c.kernels.lookup op

/-- The command of an operation. -/
def command (c : Context) (g : Graph) (l : Layout) (n : Node) : Except Error Command := do
  let some location := n.place | throw (.message (n.label ++ " was never placed"))
  discard (c.device location)
  let inputs ← n.inputs.mapM l.site
  let output ← l.site n.output
  let work ← workOf c g n
  return {
    node := n.id, label := n.label, op := n.op, location, kind := (← g.ty n.output).kind
    inputs, output, inPlace := n.inPlace, work, math := ← c.mathMode location }

/-- Number of reads of a slot by the commands. -/
def readsOf (commands : List Command) (slot : SlotId) : Nat :=
  (commands.flatMap Command.inputs).countP fun s => s.slot == slot

/-- Whether a slot holds a root or a kept upload. -/
def isPinned (roots : List Site) (commands : List Command) (slot : SlotId) : Bool :=
  (roots.any fun s => s.slot == slot) ||
    commands.any fun c => c.isKept && c.output.slot == slot

/-- The leaves of a graph that have a slot, as far as `f` selects them. -/
def leaves {α : Type} (g : Graph) (l : Layout) (f : Var → Option α) : List (Site × α) :=
  (g.vars.toList.mapIdx fun v x => do
    let slot ← l.slot v
    let a ← f x
    some (⟨v, slot⟩, a)).filterMap id

/-- The new value of a persistent value. -/
def update (g : Graph) (l : Layout) (u : VarId × VarId) : Except Error (Cell × Site) := do
  match (← g.var u.1).cell? with
  | some cell => return (cell, ← l.site u.2)
  | none => throw (.construction "update" (varName u.1 ++ " is not a persistent value"))

/-- The schedule of a placed program. -/
def build (c : Context) (p : Program) (report : List PassReport) : Except Error Schedule := do
  let g := p.graph
  let order ← p.order
  let l ← Layout.build p order
  let roots ← p.roots.mapM l.site
  let commands ← order.mapM (command c g l)
  let inputs ← p.inputs.mapM fun v => return (← l.site v, ← g.ty v)
  let outputs ← p.outputs.mapM l.site
  let updates ← p.updates.mapM (update g l)
  return {
    program := p, report, commands, inputs, outputs, updates
    reads := ((List.range l.count).map (readsOf commands)).toArray
    pinned := ((List.range l.count).map (isPinned roots commands)).toArray
    constants := leaves g l Var.constant?
    cells := leaves g l Var.cell? }

/-- Number of slots. -/
def slotCount (s : Schedule) : Nat := s.reads.size

end Schedule

end TensorGraph
