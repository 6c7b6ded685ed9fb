import TensorGraph.Kernel.Registry
import TensorGraph.Machine.Device

/-!
Contexts: the devices, capability tables and kernels that compilations target. A context holds its
accelerator for as long as somebody owns the context.
-/

namespace TensorGraph

/-- What a compilation targets. -/
structure Context where
  id : ContextId
  config : Config
  accelerator : Option Device
  hostTable : Table
  acceleratorTable : Option Table
  kernels : Kernels

namespace Context

/-- The error of a location outside the context. -/
def absent {α : Type} (l : Location) : Except Error α :=
  .error (.configuration (l.name ++ " is not part of this context"))

/-- The device that placement prefers. -/
def targetDevice (c : Context) : Device := c.accelerator.getD .host

def target (c : Context) : Location := c.targetDevice.location

/-- The table of the device that placement prefers. -/
def targetTable (c : Context) : Table := c.acceleratorTable.getD c.hostTable

/-- The device at a location. -/
def device (c : Context) (l : Location) : Except Error Device :=
  match l, c.accelerator with
  | .host, _ => .ok .host
  | .device _, some d => if d.location = l then .ok d else absent l
  | .device _, none => absent l

/-- The table of the device at a location. -/
def table (c : Context) (l : Location) : Except Error Table :=
  match l, c.acceleratorTable with
  | .host, _ => .ok c.hostTable
  | .device _, some t => if t.location = l then .ok t else absent l
  | .device _, none => absent l

/-- Options of the kernels that run at a location. -/
def mathMode (c : Context) (l : Location) : Except Error MathMode := do
  let d ← c.device l
  return d.mathMode c.config.math

/-- Takes a lease on an accelerator. -/
def lease (ordinal : Nat) : Action Machine Unit := do
  let leases ← (← get).leases.acquire ordinal
  modify fun m => { m with leases }

/-- The table to use for the accelerator, if there is one. A custom table has to be for it. -/
def chooseTable (accelerator : Option Device) (custom : Option Table) :
    Except Error (Option Table) :=
  match accelerator, custom with
  | some d, some t =>
    if t.location = d.location then .ok (some t)
    else .error (.configuration
      ("capability table for " ++ t.location.name ++ " does not match " ++ d.name))
  | some d, none => .ok (some d.table)
  | none, some t => .error (.configuration
      ("capability table for " ++ t.location.name ++ " given but no accelerator is targeted"))
  | none, none => .ok none

/-- The last table for the host, and the last one for another location. -/
def customTables (tables : List Table) : Option Table × Option Table :=
  (tables.reverse.find? fun t => t.location.isHost,
   tables.reverse.find? fun t => !t.location.isHost)

/-- Opens the target and gives the device with its table, none for the host. -/
def openTarget (config : Config) (custom : Option Table) :
    Action Machine (Option Device × Option Table) := do
  let accelerator ← match config.target with
    | .host => pure none
    | target => some <$> Device.connect target config.sim
  return (accelerator, ← chooseTable accelerator custom)

/-- Opens the device that the configuration targets. The lease is returned if that fails. -/
def build (config : Config) (tables : List Table) (kernels : Kernels) : Action Machine Context := do
  let (hostTable, custom) := customTables tables
  if let some n := config.target.ordinal? then lease n
  match ← (openTarget config custom).attempt with
  | .error e =>
    if let some n := config.target.ordinal? then
      modify fun m => { m with leases := m.leases.release n }
    throw e
  | .ok (accelerator, acceleratorTable) =>
    let m ← get
    set { m with owners := m.owners.push 1 }
    return {
      id := m.owners.size, config, accelerator, kernels, acceleratorTable
      hostTable := hostTable.getD .host }

/-- Adds an owner. -/
def retain (c : Context) (m : Machine) : Machine :=
  { m with owners := m.owners.modify c.id (· + 1) }

/-- Removes an owner. The last one returns the lease. -/
def release (c : Context) (m : Machine) : Machine :=
  let m := { m with owners := m.owners.modify c.id (· - 1) }
  match m.owners.getD c.id 0, c.config.target.ordinal? with
  | 0, some n => { m with leases := m.leases.release n }
  | _, _ => m

/-- Waits for all work on the devices of the context. -/
def synchronize (c : Context) : Action Machine Unit :=
  match c.accelerator with
  | some d => d.synchronize
  | none => return

end Context

end TensorGraph
