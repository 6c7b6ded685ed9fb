import TensorGraph.Op.Basic

/-!
What a device can run. A table gives, for each capability, the kinds it covers; an entry for one
family of operations replaces the kinds of its capability.
-/

namespace TensorGraph

/-- A set of element kinds. -/
structure KindSet where
  has : Kind → Bool

namespace KindSet

def empty : KindSet := ⟨fun _ => false⟩

def all : KindSet := ⟨fun _ => true⟩

def insert (s : KindSet) (k : Kind) : KindSet := ⟨fun x => x = k || s.has x⟩

def erase (s : KindSet) (k : Kind) : KindSet := ⟨fun x => x ≠ k && s.has x⟩

def ofList (ks : List Kind) : KindSet := ⟨ks.contains⟩

/-- The members in the order of `Kind.all`. -/
def toList (s : KindSet) : List Kind := Kind.all.filter s.has

def isEmpty (s : KindSet) : Bool := s.toList.isEmpty

def shown (s : KindSet) : String := Text.braced (s.toList.map Kind.tag)

theorem mem_toList {s : KindSet} {k : Kind} : k ∈ s.toList ↔ s.has k := by
  simp [toList, Kind.mem_all]

end KindSet

/-- Whether a launch returns before its work is done. -/
inductive Mode where
  | sync
  | async
  deriving DecidableEq, Repr, Inhabited

/-- How far a device covers one capability. -/
structure Support where
  kinds : KindSet
  mode : Mode
  /-- Outputs may overwrite an input nobody needs any more. -/
  inPlace : Bool

/-- What a device can run. -/
structure Table where
  name : String
  location : Location
  support : Capability → Option Support
  override : Family → Option KindSet

namespace Table

/-- A device that runs nothing. -/
def empty (name : String) (location : Location) : Table :=
  ⟨name, location, fun _ => none, fun _ => none⟩

/-- Declares or replaces the support for a capability. -/
def declare (t : Table) (c : Capability) (s : Support) : Table :=
  { t with support := fun x => if x = c then some s else t.support x }

/-- Sets the kinds of one family of operations, whatever its capability covers. -/
def restrict (t : Table) (f : Family) (kinds : KindSet) : Table :=
  { t with override := fun x => if x = f then some kinds else t.override x }

def disable (t : Table) (f : Family) : Table := t.restrict f .empty

/-- Everything, synchronously. -/
def host : Table :=
  { empty "host" .host with support := fun _ => some ⟨.all, .sync, true⟩ }

/-- The kinds of the simulated accelerator: none of 64 bits. -/
def simKinds : KindSet := .ofList [.u8, .u32, .i32, .f16, .bf16, .f32]

/-- The simulated accelerator, whose linear algebra is in single precision only. -/
def sim (ordinal : Nat) : Table :=
  { empty s!"sim:{ordinal}" (.device ordinal) with
    support := fun
      | .linearAlgebra => some ⟨.ofList [.f32], .async, false⟩
      | _ => some ⟨simKinds, .async, true⟩ }

/-- A device that runs generated elementwise kernels and transfers. -/
def cuda (ordinal : Nat) : Table :=
  { empty s!"cuda:{ordinal}" (.device ordinal) with
    support := fun
      | .elementwise | .transfer => some ⟨.all, .async, true⟩
      | _ => none }

/-- A device is asynchronous as soon as one capability is. -/
def mode (t : Table) : Mode :=
  if Capability.all.any fun c => (t.support c).any fun s => s.mode == .async then .async else .sync

def supportsInPlace (t : Table) (c : Capability) : Bool := (t.support c).any Support.inPlace

/-- Whether `op` runs here on elements of all the kinds, else the reason. -/
def supports (t : Table) (op : Op) (kinds : List Kind) : Except String Unit :=
  match t.support op.capability with
  | none => .error (t.name ++ " has no " ++ op.capability.name ++ " support")
  | some s =>
    let allowed := (t.override op.family).getD s.kinds
    if allowed.isEmpty then .error (op.name ++ " is disabled on " ++ t.name)
    else
      match kinds.find? fun k => !allowed.has k with
      | some k => .error (t.name ++ " does not support " ++ k.name ++ " for " ++ op.name)
      | none => .ok ()

end Table

end TensorGraph
