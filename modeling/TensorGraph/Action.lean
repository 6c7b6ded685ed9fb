import TensorGraph.Error

/-!
Actions on a state that can fail. What an action did before it failed stays done.
-/

namespace TensorGraph

/-- An action on a state of type `σ`. -/
abbrev Action (σ α : Type) := ExceptT Error (StateM σ) α

namespace Action

variable {σ τ α : Type}

/-- The result of an action and the state it leaves. -/
def start (a : Action σ α) (s : σ) : Except Error α × σ := ExceptT.run a s

/-- An action on a part of a larger state. -/
def onPart (get : σ → τ) (set : σ → τ → σ) (a : Action τ α) : Action σ α :=
  ExceptT.mk fun s =>
    let (r, t) := a.start (get s)
    (r, set s t)

/-- Runs an action that may fail, and gives its result as a value. -/
def attempt (a : Action σ α) : Action σ (Except Error α) :=
  ExceptT.mk fun s =>
    let (r, s) := a.start s
    (.ok r, s)

end Action

end TensorGraph
