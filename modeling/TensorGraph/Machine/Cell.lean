import TensorGraph.Graph.Basic
import TensorGraph.Machine.Basic

/-!
Persistent values: tensors that calls read and update. Several graphs may refer to one.
-/

namespace TensorGraph

namespace Cell

/-- A new persistent value. -/
def create (t : Tensor) : Action Machine Cell := do
  let m ← get
  set { m with cells := m.cells.push t }
  return ⟨m.cells.size, t.kind, t.rank⟩

/-- The current value. -/
def read (c : Cell) : Action Machine Tensor := return (← get).cells.getD c.id default

/-- Replaces the value by one of the same kind and rank. -/
def write (c : Cell) (t : Tensor) : Action Machine Unit := do
  if t.kind ≠ c.kind then
    throw (.type "shared" ("expected " ++ c.kind.name ++ ", got " ++ t.kind.name))
  if t.rank ≠ c.rank then
    throw (.shape "shared" (s!"expected rank {c.rank}, got " ++ Text.numbers t.shape))
  modify fun m => { m with cells := m.cells.setIfInBounds c.id t }

/-- Whether both refer to one value. -/
def same (a b : Cell) : Bool := a.id == b.id

end Cell

end TensorGraph
