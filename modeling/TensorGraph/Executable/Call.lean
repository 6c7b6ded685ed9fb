import TensorGraph.Executable.Output
import TensorGraph.Machine.Cell

/-!
Calls. The commands of the schedule run one after the other; then the outputs are read, then the
new values of persistent values, and these are written last, so that a call that fails changes
none of them. After a failure the slots are empty, and if an accelerator was lost the executable
cannot be called again.
-/

namespace TensorGraph

namespace Calling

/-- A host tensor of the value in a buffer. -/
def toHost (c : Context) (b : Buffer) (shape : Shape) : Calling Tensor := do
  if !b.location.isHost then countSync
  onMachine ((← c.device b.location).materialize b shape)

/-- Moves a value to the device of the command. -/
def transfer (c : Context) (cmd : Command) (shape : Shape) : Calling Unit := do
  match cmd.inputs with
  | [] => throw .crash
  | input :: _ =>
    let src ← buffer input.slot
    let d ← c.device cmd.location
    let dst ← acquire cmd.output.slot d cmd.kind shape.volume
    let data ← onMachine ((← c.device src.location).download src shape.volume)
    onMachine (d.upload data shape.volume dst)
    count fun s => { s with transfers := s.transfers + 1, syncs := s.syncs + 1 }

/-- Runs a kernel on the operands of the command, with the output in `out`. The operands in slot
`held` are in its buffer. -/
def launch (d : Device) (cmd : Command) (kernel : Kernel) (shapes : List Shape) (shape : Shape)
    (held : Option (SlotId × Buffer)) (out : Buffer) : Calling Unit := do
  let buffers ← cmd.inputs.mapM fun s =>
    match held with
    | some (slot, input) => if slot = s.slot then pure input else buffer s.slot
    | none => buffer s.slot
  onMachine (d.dispatch {
    label := cmd.label, op := cmd.op, kernel, inputs := buffers.zip shapes
    output := out, shape, math := cmd.math })
  count fun s => { s with dispatches := s.dispatches + 1 }

/-- Runs a kernel, over one of its operands if the command says so. -/
def compute (c : Context) (cmd : Command) (kernel : Kernel) (shapes : List Shape) (shape : Shape) :
    Calling Unit := do
  let d ← c.device cmd.location
  match cmd.inPlace with
  | none =>
    let out ← acquire cmd.output.slot d cmd.kind shape.volume
    launch d cmd kernel shapes shape none out
  | some i =>
    let slot := (← Kernel.item cmd.inputs i).slot
    let input ← buffer slot
    holding input do
      let out ← acquireOver slot input d cmd.kind shape.volume
      launch d cmd kernel shapes shape (some (slot, input)) out

/-- Runs one command and gives back the buffers that nobody reads any more. -/
def execute (s : Schedule) (c : Context) (cmd : Command) : Calling Unit := do
  let shapes ← cmd.inputs.mapM fun x => Calling.shape x.var
  let shape ← cmd.op.resultShape shapes
  match cmd.work with
  | .transfer kept =>
    let present := ((← get).frame.buffer? cmd.output.slot).isSome
    if !(kept && present) then transfer c cmd shape
  | .launch kernel => compute c cmd kernel shapes shape
  onFrame fun x => { x with shapes := x.shapes.setIfInBounds cmd.output.var (some shape) }
  cmd.inputs.forM fun x => release s c x.slot
  if (← remaining cmd.output.slot) = 0 then free s c cmd.output.slot

/-- Starts a call: inputs, constants and persistent values go into their slots. -/
def begin (s : Schedule) (inputs : List Tensor) : Calling Unit := do
  enter .dispatching
  count fun x => { x with calls := x.calls + 1 }
  onFrame fun x => { x with counts := s.reads, shapes := x.shapes.map fun _ => none }
  ((s.inputs.map Prod.fst).zip inputs).forM fun (site, t) => bind site t
  s.constants.forM fun (site, t) => bind site t
  s.cells.forM fun (site, cell) => do bind site (← onMachine cell.read)

/-- One output of call number `call`. -/
def output (c : Context) (f : ExecutableId) (borrow : Bool) (call : Nat) (s : Site) :
    Calling Output := do
  let b ← buffer s.slot
  let shape ← Calling.shape s.var
  if borrow then
    return .borrowed ⟨b, shape, ← c.device b.location, f, call⟩
  else return .host (← toHost c b shape)

/-- The new values of persistent values. -/
def newValues (s : Schedule) (c : Context) : Calling (List (Cell × Tensor)) :=
  s.updates.mapM fun (cell, site) => do
    let b ← buffer site.slot
    let shape ← Calling.shape site.var
    return (cell, ← toHost c b shape)

/-- Runs an accepted call. -/
def run (s : Schedule) (c : Context) (f : ExecutableId) (inputs : List Tensor) (borrow : Bool)
    (call : Nat) : Calling (List Output) := do
  begin s inputs
  s.commands.forM (execute s c)
  if !borrow || !s.updates.isEmpty then enter .syncing
  let outputs ← s.outputs.mapM (output c f borrow call)
  let values ← newValues s c
  values.forM fun (cell, t) => onMachine (cell.write t)
  modify fun a => { a with machine := outputs.foldl (fun m o => o.retain m) a.machine }
  dropBorrowed s
  enter .complete
  return outputs

/-- Checks the arguments of a call, from number `i` on. -/
def checkInputs (i : Nat) : List (Site × Ty) → List Tensor → Except Error Unit
  | (_, ty) :: expected, t :: ts => do
    if t.kind ≠ ty.kind then
      throw (.invalidCall (s!"input {i} must be " ++ ty.kind.name ++ ", got " ++ t.kind.name))
    if t.rank ≠ ty.rank then
      throw (.invalidCall
        (s!"input {i} must have rank {ty.rank}, got shape " ++ Text.numbers t.shape))
    checkInputs (i + 1) expected ts
  | _, _ => .ok ()

/-- Checks number, kinds and ranks of the arguments of a call. -/
def accept (s : Schedule) (inputs : List Tensor) : Except Error Unit := do
  if inputs.length ≠ s.inputs.length then
    throw (.invalidCall s!"expected {s.inputs.length} inputs, got {inputs.length}")
  checkInputs 0 s.inputs inputs

/-- Numbers an accepted call of an executable. -/
def nextCall (f : ExecutableId) : Calling Nat := do
  modify fun a => { a with machine.calls := a.machine.calls.modify f (· + 1) }
  return (← get).machine.callsOf f

/-- Cleans up after a call that failed with `e`. -/
def recover (s : Schedule) (c : Context) (e : Error) : Calling Unit := do
  reset s
  let drained ← (onMachine c.synchronize).attempt
  let lost := match drained with
    | .error d => d.isFatal
    | .ok _ => false
  if e.isFatal || lost then onFrame fun x => { x with poisoned := some e.text }
  enter .idle

/-- Calls an executable. -/
def invoke (s : Schedule) (c : Context) (f : ExecutableId) (inputs : List Tensor) (borrow : Bool) :
    Calling (List Output) := do
  if let some reason := (← get).frame.poisoned then throw (.poisoned reason)
  accept s inputs
  let call ← nextCall f
  match ← (run s c f inputs borrow call).attempt with
  | .ok outputs => return outputs
  | .error e =>
    recover s c e
    throw e

/-- Waits for all work and reports failures that no call has reported. -/
def synchronize (c : Context) : Calling Unit := do
  countSync
  match ← (onMachine c.synchronize).attempt with
  | .ok _ => return
  | .error e =>
    if e.isFatal then onFrame fun x => { x with poisoned := some e.text }
    throw e

end Calling

end TensorGraph
