import TensorGraph.Device.Memory

/-!
Which launches touch a block, and which earlier launches a new one has to wait for. A launch that
reads a block waits for its last writer; a launch that writes a block waits for its last writer
and for everyone who read it since. Readers that have finished are forgotten.
-/

namespace TensorGraph

/-- Number of a launch on its accelerator, in the order of dispatch. -/
abbrev LaunchId := Nat

/-- The launches that touch one block. -/
structure Hazards where
  writer : Option LaunchId := none
  readers : List LaunchId := []
  deriving DecidableEq, Repr, Inhabited

namespace Hazards

/-- Every launch that touches the block, the writer first. -/
def pending (h : Hazards) : List LaunchId := h.writer.toList ++ h.readers

end Hazards

/-- The hazards of every block. -/
structure Tracker where
  entries : List (BlockId × Hazards) := []
  deriving DecidableEq, Repr, Inhabited

namespace Tracker

/-- The hazards of a block. -/
def get (t : Tracker) (b : BlockId) : Hazards :=
  match t.entries.find? fun e => e.1 == b with
  | some (_, h) => h
  | none => {}

/-- Replaces the hazards of a block. -/
def set (t : Tracker) (b : BlockId) (h : Hazards) : Tracker :=
  ⟨(b, h) :: t.entries.filter fun e => e.1 != b⟩

/-- Forgets the launches of a block whose contents were replaced from outside. -/
def clear (t : Tracker) (b : BlockId) : Tracker := t.set b {}

/-- Records that `launch` reads the blocks, and lists the launches it has to wait for. -/
def trackReads (finished : LaunchId → Bool) (launch : LaunchId) :
    Tracker → List BlockId → Tracker × List LaunchId
  | t, [] => (t, [])
  | t, b :: bs =>
    let h := t.get b
    let readers := (h.readers.filter fun r => !finished r) ++ [launch]
    let (t, deps) := trackReads finished launch (t.set b { h with readers }) bs
    (t, h.writer.toList ++ deps)

/-- Records a launch that reads `inputs` and writes `out`, and lists the launches it has to wait
for. An input that is `out` itself is covered by the write. -/
def track (t : Tracker) (finished : LaunchId → Bool) (launch : LaunchId) (inputs : List BlockId)
    (out : BlockId) : Tracker × List LaunchId :=
  let (t, deps) := trackReads finished launch t (inputs.filter fun b => b != out)
  (t.set out { writer := some launch }, deps ++ (t.get out).pending)

end Tracker

end TensorGraph
