import TensorGraph.Executable.Schedule

/-!
What an executable keeps between its calls, above all the buffers in its slots. A buffer is reused
when it is large enough and nobody else holds it, so a borrowed output is never overwritten.
-/

namespace TensorGraph

/-- Where an executable is in a call. -/
inductive Phase where
  | idle
  | dispatching
  | syncing
  | complete
  deriving DecidableEq, Repr, Inhabited

def Phase.tag : Phase → String
  | idle => "Idle"
  | dispatching => "Dispatching"
  | syncing => "Syncing"
  | complete => "Complete"

/-- Counters over all calls of an executable. -/
structure Stats where
  calls : Nat := 0
  /-- Kernels handed to a device. -/
  dispatches : Nat := 0
  transfers : Nat := 0
  /-- How often the executable waited for a device. -/
  syncs : Nat := 0
  allocations : Nat := 0
  /-- How often a buffer left in a slot was used again. -/
  reuses : Nat := 0
  /-- Owned buffers given back because nobody reads them any more. -/
  releases : Nat := 0
  /-- Bytes ever allocated. -/
  bytesAllocated : Nat := 0
  deriving DecidableEq, Repr, Inhabited

/-- The mutable part of an executable. -/
structure Frame where
  slots : Array (Option Buffer)
  /-- Reads of each slot still to come in the current call. -/
  counts : Array Nat
  /-- Shape of each variable in the current call. -/
  shapes : Array (Option Shape)
  phase : Phase := .idle
  /-- Why the executable cannot be called any more. -/
  poisoned : Option String := none
  stats : Stats := {}
  deriving Inhabited

namespace Frame

/-- The frame of an executable that was never called. -/
def fresh (s : Schedule) : Frame :=
  { slots := Array.replicate s.slotCount none
    counts := s.reads
    shapes := Array.replicate s.program.graph.vars.size none }

/-- The buffer in a slot. -/
def buffer? (f : Frame) (slot : SlotId) : Option Buffer := f.slots[slot]?.join

/-- Bytes of the owned buffers in all slots. -/
def bytesInUse (f : Frame) : Nat :=
  f.slots.foldl (fun total b => match b with
    | some (.owned r) => total + (Buffer.owned r).bytes
    | _ => total) 0

end Frame

/-- An executable in a call, and the machine around it. -/
structure Activation where
  frame : Frame
  machine : Machine
  deriving Inhabited

/-- A part of a call. -/
abbrev Calling := Action Activation

namespace Calling

/-- An action on the machine. -/
def onMachine {α : Type} (act : Action Machine α) : Calling α :=
  act.onPart Activation.machine fun a m => { a with machine := m }

/-- Changes the frame. -/
def onFrame (f : Frame → Frame) : Calling Unit := modify fun a => { a with frame := f a.frame }

/-- Changes the counters. -/
def count (f : Stats → Stats) : Calling Unit :=
  onFrame fun x => { x with stats := f x.stats }

/-- Counts a wait for a device. -/
def countSync : Calling Unit := count fun s => { s with syncs := s.syncs + 1 }

def enter (phase : Phase) : Calling Unit := onFrame fun x => { x with phase }

/-- The buffer in a slot. -/
def buffer (slot : SlotId) : Calling Buffer := do
  match (← get).frame.buffer? slot with
  | some b => return b
  | none => throw (.message s!"slot {slot} is empty")

/-- Puts a buffer into a slot, or none. The slot no longer holds the buffer that was there. -/
def put (slot : SlotId) (b : Option Buffer) : Calling Unit :=
  modify fun a =>
    { frame := { a.frame with slots := a.frame.slots.setIfInBounds slot b }
      machine := match a.frame.buffer? slot with
        | some old => a.machine.release old
        | none => a.machine }

/-- Puts data of the caller into the slot of a value. -/
def bind (s : Site) (t : Tensor) : Calling Unit := do
  put s.slot (some (.borrowed t.data))
  onFrame fun x => { x with shapes := x.shapes.setIfInBounds s.var (some t.shape) }

/-- The shape of a value. -/
def shape (v : VarId) : Calling Shape := do
  match (← get).frame.shapes[v]?.join with
  | some s => return s
  | none => throw (.message (varName v ++ " has not been computed"))

/-- Whether a buffer can hold a new value of `n` elements on a device, when it has exactly
`holders` holders. -/
def reusable (m : Machine) (b : Buffer) (d : Device) (kind : Kind) (n holders : Nat) : Bool :=
  match b with
  | .owned r =>
    r.device.location == d.location && r.kind == kind && r.capacity ≥ n && m.holders r == holders
  | .borrowed _ => false

/-- Puts a new buffer into a slot. It has room for one element at least. -/
def allocate (slot : SlotId) (d : Device) (kind : Kind) (n : Nat) : Calling Buffer := do
  let b := Buffer.owned (← onMachine (d.alloc kind (max n 1)))
  count fun s =>
    { s with allocations := s.allocations + 1, bytesAllocated := s.bytesAllocated + b.bytes }
  put slot (some b)
  return b

/-- Counts that a buffer is used again. -/
def countReuse : Calling Unit := count fun s => { s with reuses := s.reuses + 1 }

/-- A buffer for a value of `n` elements in a slot: the one there, if only the slot holds it. -/
def acquire (slot : SlotId) (d : Device) (kind : Kind) (n : Nat) : Calling Buffer := do
  let a ← get
  match a.frame.buffer? slot with
  | some b =>
    if reusable a.machine b d kind n 1 then
      countReuse
      return b
    allocate slot d kind n
  | none => allocate slot d kind n

/-- A buffer for a value that overwrites the one in its slot: that buffer itself, if only the slot
and the running command hold it. -/
def acquireOver (slot : SlotId) (input : Buffer) (d : Device) (kind : Kind) (n : Nat) :
    Calling Buffer := do
  if reusable (← get).machine input d kind n 2 then
    countReuse
    return input
  put slot none
  allocate slot d kind n

/-- Holds a buffer while an action runs. -/
def holding {α : Type} (b : Buffer) (act : Calling α) : Calling α := do
  modify fun a => { a with machine := a.machine.retain b }
  let result ← act.attempt
  modify fun a => { a with machine := a.machine.release b }
  result

/-- Gives back the buffer of a slot that nobody reads any more. Pinned slots keep theirs, and
without collection only data of the caller is given up. -/
def free (s : Schedule) (c : Context) (slot : SlotId) : Calling Unit := do
  if s.pinned.getD slot false then return
  match (← get).frame.buffer? slot with
  | none => return
  | some (.borrowed _) => put slot none
  | some (.owned r) =>
    if !c.config.collect then return
    let b := Buffer.owned r
    if !b.location.isHost then onMachine ((← c.device b.location).settle b)
    put slot none
    count fun s => { s with releases := s.releases + 1 }
    if !b.location.isHost then countSync

/-- Number of reads of a slot still to come. -/
def remaining (slot : SlotId) : Calling Nat := return (← get).frame.counts.getD slot 0

/-- Counts one read of a slot. After the last one its buffer is given back. -/
def release (s : Schedule) (c : Context) (slot : SlotId) : Calling Unit := do
  onFrame fun x => { x with counts := x.counts.modify slot (· - 1) }
  if (← remaining slot) = 0 then free s c slot

/-- Empties the slots whose buffer satisfies `p`. -/
def drop (s : Schedule) (p : Buffer → Bool) : Calling Unit :=
  (List.range s.slotCount).forM fun slot => do
    if ((← get).frame.buffer? slot).any p then put slot none

/-- Gives up data of the caller once a call is complete. -/
def dropBorrowed (s : Schedule) : Calling Unit := drop s fun b => !b.isOwned

/-- Empties every slot. -/
def reset (s : Schedule) : Calling Unit := do
  drop s fun _ => true
  onFrame fun x => { x with counts := s.reads }

end Calling

end TensorGraph
