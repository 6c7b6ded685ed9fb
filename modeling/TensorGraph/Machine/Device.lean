import TensorGraph.Machine.Basic

/-!
What devices do: they allocate, copy to and from the host, run kernels and wait. The host works at
once. An accelerator may report later that something failed.
-/

namespace TensorGraph

/-- Work of one accelerator. -/
def Machine.onAccelerator {α : Type} (id : AcceleratorId) (act : Action Accelerator α) :
    Action Machine α :=
  act.onPart (fun m => m.accelerator id) (fun m a => m.setAccelerator id a)

namespace Device

/-- Opens the device that a target names. -/
def connect (target : Target) (config : SimConfig) : Action Machine Device := do
  match target with
  | .host => return .host
  | .sim n =>
    let m ← get
    let a : Accelerator :=
      { ordinal := n
        lanes := max (config.laneCount m.processors) 1
        limit := config.memory
        fault := config.fault
        alert := m.alert }
    set { m with accelerators := m.accelerators.push a }
    return .sim m.accelerators.size n
  | .cuda n =>
    throw (.configuration
      (s!"cuda{n} requested but symtensor was built without the `cuda` feature"))

/-- The error of an operation on a buffer that lives elsewhere. -/
def elsewhere {α : Type} (d : Device) (op : String) (b : Buffer) : Action Machine α :=
  throw (.onDevice d.name op ("storage lives on " ++ b.location.name))

/-- A new block of zeros. -/
def alloc (d : Device) (kind : Kind) (n : Nat) : Action Machine BlockRef := do
  match d with
  | .host =>
    let m ← get
    if n < Shape.capacity then
      set { m with host := m.host.alloc kind n }
      return ⟨d, m.host.next, kind, n⟩
    else throw .crash
  | .sim id _ => return ⟨d, ← Machine.onAccelerator id (Accelerator.alloc kind n), kind, n⟩

/-- The contents of a host block. -/
def hostContents (b : BlockId) : Action Machine Data := do
  match (← get).host.get? b with
  | some block => return block.data
  | none => throw .crash

/-- Copies the first `n` elements of host data into a buffer. -/
def upload (d : Device) (source : Data) (n : Nat) (dst : Buffer) : Action Machine Unit := do
  match d, dst with
  | .host, .borrowed _ => throw (.message "borrowed host storage is read only")
  | .host, .owned ⟨.host, b, _, _⟩ =>
    let data ← (← hostContents b).copyFrom source n
    modify fun m => { m with host := m.host.write b data }
  | .sim id _, .owned ⟨.sim home _, b, _, _⟩ =>
    Machine.onAccelerator id (Accelerator.checkAlive "upload")
    Machine.onAccelerator home (Accelerator.upload source n b)
  | _, _ => d.elsewhere "upload" dst

/-- The first `n` elements of a buffer. -/
def download (d : Device) (src : Buffer) (n : Nat) : Action Machine Data := do
  match d, src with
  | .host, .borrowed data => data.take n
  | .host, .owned ⟨.host, b, _, _⟩ => (← hostContents b).take n
  | .sim id _, .owned ⟨.sim home _, b, _, _⟩ =>
    Machine.onAccelerator id (Accelerator.checkAlive "download")
    Machine.onAccelerator home (Accelerator.download b n)
  | _, _ => d.elsewhere "download" src

/-- An operand of a launch, which has to live on the side of the device. -/
def operand (d : Device) (label : String) (b : Buffer) : Except Error Buffer :=
  match d, b with
  | .host, .borrowed _ => .ok b
  | .host, .owned ⟨.host, _, _, _⟩ => .ok b
  | .sim _ _, .owned ⟨.sim _ _, _, _, _⟩ => .ok b
  | _, _ => .error (.onDevice d.name label ("operand lives on " ++ b.location.name))

/-- An operand of a host kernel that writes block `out`. -/
def hostOperand (out : BlockId) (b : Buffer) : Action Machine Operand := do
  match b with
  | .borrowed data => return .buffer data
  | .owned r => if r.id = out then return .output else return .buffer (← hostContents r.id)

/-- Runs a kernel on the host. Its failure is told of the launch. -/
def runOnHost (l : Launch Buffer) (out : BlockId) : Action Machine Unit := do
  let inputs ← l.inputs.mapM fun (b, _) => hostOperand out b
  let args : KernelArgs :=
    { inputs
      shapes := l.inputs.map Prod.snd
      out := ← hostContents out
      outShape := l.shape
      math := l.math }
  match l.kernel l.op args with
  | .ok data => modify fun m => { m with host := m.host.write out data }
  | .error .crash => throw .crash
  | .error e => throw (.onDevice "host" l.label e.text)

/-- Hands a kernel to the device. -/
def dispatch (d : Device) (l : Launch Buffer) : Action Machine Unit := do
  let inputs ← l.inputs.mapM fun (b, shape) => return (← d.operand l.label b, shape)
  match d, ← d.operand l.label l.output with
  | _, .borrowed _ => throw (.onDevice d.name l.label "output storage is read only")
  | .host, .owned out => runOnHost l out.id
  | .sim id _, .owned out =>
    Machine.onAccelerator id (Accelerator.dispatch
      { label := l.label
        op := l.op
        kernel := l.kernel
        inputs := inputs.filterMap fun (b, shape) => b.block?.map fun r => (r.id, shape)
        output := out.id
        shape := l.shape
        math := l.math })

/-- Waits for all work of the device. -/
def synchronize (d : Device) : Action Machine Unit :=
  match d with
  | .host => return
  | .sim id _ => Machine.onAccelerator id Accelerator.synchronize

/-- Waits for all work that touches a buffer. -/
def settle (d : Device) (b : Buffer) : Action Machine Unit :=
  match d, b with
  | .host, .borrowed _ | .host, .owned ⟨.host, _, _, _⟩ => return
  | .sim _ _, .owned ⟨.sim home _, id, _, _⟩ =>
    Machine.onAccelerator home (Accelerator.settleBlock id)
  | _, _ => d.elsewhere "synchronize" b

end Device

end TensorGraph
