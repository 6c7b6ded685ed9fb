import TensorGraph.Executable.Frame

/-!
Results of calls: host tensors, or handles on buffers that stay with the executable. A handle is
valid until the next accepted call of its executable.
-/

namespace TensorGraph

/-- A result left in a buffer of the executable that computed it. -/
structure Handle where
  buffer : Buffer
  shape : Shape
  device : Device
  executable : ExecutableId
  /-- Number of the call that computed the result. -/
  call : Nat
  deriving Inhabited

/-- A result of a call. -/
inductive Output where
  | host (t : Tensor)
  | borrowed (h : Handle)
  deriving Inhabited

/-- A host tensor of the first elements of a buffer. -/
def Device.materialize (d : Device) (b : Buffer) (shape : Shape) : Action Machine Tensor := do
  Tensor.make shape (← d.download b shape.volume)

namespace Handle

/-- Whether the executable was not called since. -/
def isValid (h : Handle) (m : Machine) : Bool := m.callsOf h.executable == h.call

/-- Copies the value to the host. -/
def toHost (h : Handle) : Action Machine Tensor := do
  let current := (← get).callsOf h.executable
  if current ≠ h.call then throw (.stale h.call current)
  h.device.materialize h.buffer h.shape

end Handle

namespace Output

def shape : Output → Shape
  | host t => t.shape
  | borrowed h => h.shape

def isBorrowed : Output → Bool
  | host _ => false
  | borrowed _ => true

/-- The value as a host tensor. -/
def toHost : Output → Action Machine Tensor
  | host t => return t
  | borrowed h => h.toHost

/-- Adds a holder of the buffer that the output refers to. -/
def retain (o : Output) (m : Machine) : Machine :=
  match o with
  | host _ => m
  | borrowed h => m.retain h.buffer

/-- Drops the output. -/
def release (o : Output) (m : Machine) : Machine :=
  match o with
  | host _ => m
  | borrowed h => m.release h.buffer

end Output

end TensorGraph
