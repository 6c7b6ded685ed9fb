import TensorGraph.Capability
import TensorGraph.Device.Memory
import TensorGraph.Kernel.Basic

/-!
Devices, and the buffers that live on them.
-/

namespace TensorGraph

/-- Number of an accelerator in the machine. -/
abbrev AcceleratorId := Nat

/-- An open device: the host, or an accelerator with its number and its ordinal. -/
inductive Device where
  | host
  | sim (id : AcceleratorId) (ordinal : Nat)
  deriving DecidableEq, Repr, Inhabited

namespace Device

def location : Device → Location
  | host => .host
  | sim _ n => .device n

def name : Device → String
  | host => "host"
  | sim _ n => s!"sim:{n}"

/-- What the device can run. -/
def table : Device → Table
  | host => .host
  | sim _ n => .sim n

/-- The options of kernels that run here: an accelerator sums as a balanced tree. -/
def mathMode (d : Device) (math : MathMode) : MathMode :=
  { math with pairwiseSum := d != host }

end Device

/-- A block on a device. Its kind and capacity never change. -/
structure BlockRef where
  device : Device
  id : BlockId
  kind : Kind
  capacity : Nat
  deriving DecidableEq, Repr, Inhabited

/-- Where the elements of a value are: in a block made for it, or in data of the caller, which
nobody writes. -/
inductive Buffer where
  | owned (block : BlockRef)
  | borrowed (data : Data)
  deriving Inhabited

namespace Buffer

def isOwned : Buffer → Bool
  | owned _ => true
  | borrowed _ => false

/-- The block of an owned buffer. -/
def block? : Buffer → Option BlockRef
  | owned b => some b
  | borrowed _ => none

def location : Buffer → Location
  | owned b => b.device.location
  | borrowed _ => .host

def kind : Buffer → Kind
  | owned b => b.kind
  | borrowed d => d.kind

/-- Number of elements that the buffer can hold. -/
def capacity : Buffer → Nat
  | owned b => b.capacity
  | borrowed d => d.size

/-- Size in bytes. -/
def bytes (b : Buffer) : Nat := b.capacity * b.kind.bytes

end Buffer

end TensorGraph
