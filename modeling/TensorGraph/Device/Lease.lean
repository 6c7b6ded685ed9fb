import TensorGraph.Error

/-!
The accelerator a process works with. Any number of contexts may hold the same accelerator, but
not two different ones at a time.
-/

namespace TensorGraph

/-- How many contexts hold each accelerator. -/
structure Leases where
  held : List (Nat × Nat)
  deriving DecidableEq, Repr, Inhabited

namespace Leases

def empty : Leases := ⟨[]⟩

/-- Number of leases on an accelerator. -/
def count (l : Leases) (ordinal : Nat) : Nat :=
  match l.held.find? fun e => e.1 == ordinal with
  | some (_, n) => n
  | none => 0

/-- Changes the first entry of an accelerator. -/
def update (ordinal : Nat) (f : Nat → Nat) : List (Nat × Nat) → List (Nat × Nat)
  | [] => []
  | (o, n) :: rest => if o = ordinal then (o, f n) :: rest else (o, n) :: update ordinal f rest

/-- Takes a lease, unless another accelerator is held. -/
def acquire (l : Leases) (ordinal : Nat) : Except Error Leases :=
  match l.held.find? fun (o, n) => o ≠ ordinal && n > 0 with
  | some (active, _) =>
    .error (.configuration (s!"accelerator {active} is already in use by this process, " ++
      s!"cannot target accelerator {ordinal}"))
  | none =>
    if l.held.any fun e => e.1 == ordinal then .ok ⟨update ordinal (· + 1) l.held⟩
    else .ok ⟨l.held ++ [(ordinal, 1)]⟩

/-- Returns a lease. Accelerators that nobody holds any more are forgotten. -/
def release (l : Leases) (ordinal : Nat) : Leases :=
  ⟨(update ordinal (· - 1) l.held).filter fun e => e.2 > 0⟩

end Leases

end TensorGraph
