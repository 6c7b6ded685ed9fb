import TensorGraph.Device.Accelerator
import TensorGraph.Device.Basic
import TensorGraph.Device.Lease

/-!
Everything that outlives a call: the memories of the devices, the persistent values, the leases on
accelerators and how often every executable was called.
-/

namespace TensorGraph

/-- Number of an executable in the machine. -/
abbrev ExecutableId := Nat

/-- Number of a context in the machine. -/
abbrev ContextId := Nat

/-- State shared by all contexts and executables. -/
structure Machine where
  /-- Number of processors of the host. -/
  processors : Nat := 4
  /-- Whether the host sees the loss of an accelerator before a wait reports it. -/
  alert : Bool := false
  leases : Leases := .empty
  /-- Host memory. -/
  host : Memory := {}
  accelerators : Array Accelerator := #[]
  /-- The value of each persistent value. -/
  cells : Array Tensor := #[]
  /-- Number of accepted calls of every executable. -/
  calls : Array Nat := #[]
  /-- How many owners each context has. -/
  owners : Array Nat := #[]
  deriving Inhabited

namespace Machine

/-- An accelerator by number. -/
def accelerator (m : Machine) (id : AcceleratorId) : Accelerator := m.accelerators.getD id default

/-- Replaces the state of an accelerator. -/
def setAccelerator (m : Machine) (id : AcceleratorId) (a : Accelerator) : Machine :=
  { m with accelerators := m.accelerators.setIfInBounds id a }

/-- Goes on without waiting for launches that touch more elements than this. -/
def hurry (m : Machine) (most : Nat) : Machine :=
  { m with accelerators := m.accelerators.map fun a => { a with patience := some most } }

/-- The memory of a device. -/
def memory (m : Machine) : Device → Memory
  | .host => m.host
  | .sim id _ => (m.accelerator id).memory

/-- Changes the memory of a device. -/
def onMemory (m : Machine) (d : Device) (f : Memory → Memory) : Machine :=
  match d with
  | .host => { m with host := f m.host }
  | .sim id _ =>
    let a := m.accelerator id
    m.setAccelerator id { a with memory := f a.memory }

/-- Number of slots and handles that refer to a block. -/
def holders (m : Machine) (b : BlockRef) : Nat := (m.memory b.device).holders b.id

/-- Adds a holder of a buffer. Data of the caller is not counted. -/
def retain (m : Machine) (b : Buffer) : Machine :=
  match b with
  | .owned r => m.onMemory r.device fun x => x.retain r.id
  | .borrowed _ => m

/-- Waits for the launches that still use a block which its last holder leaves. -/
def awaitUsers (m : Machine) (r : BlockRef) : Machine :=
  match r.device with
  | .host => m
  | .sim id _ =>
    let a := m.accelerator id
    if a.isInUse r.id && a.memory.holders r.id ≤ 1 then m.setAccelerator id a.landAll else m

/-- Removes a holder of a buffer. -/
def release (m : Machine) (b : Buffer) : Machine :=
  match b with
  | .owned r => (m.awaitUsers r).onMemory r.device fun x => x.release r.id
  | .borrowed _ => m

/-- Number of accepted calls of an executable. -/
def callsOf (m : Machine) (f : ExecutableId) : Nat := m.calls.getD f 0

end Machine

end TensorGraph
