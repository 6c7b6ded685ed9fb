import TensorGraph.Executable.Call

/-!
Executables: programs optimised for a context, callable any number of times. Forks of an executable
share its schedule and have buffers of their own.
-/

namespace TensorGraph

/-- A compiled program. -/
structure Executable where
  id : ExecutableId
  schedule : Schedule
  context : Context
  frame : Frame

namespace Executable

/-- An executable that runs a schedule. It is an owner of the context. -/
def create (s : Schedule) (c : Context) : Action Machine Executable := do
  let m ← get
  set (c.retain { m with calls := m.calls.push 0 })
  return ⟨m.calls.size, s, c, .fresh s⟩

/-- Runs a part of a call. -/
def run {α : Type} (f : Executable) (act : Calling α) (m : Machine) :
    Except Error α × Executable × Machine :=
  let (result, a) := act.start ⟨f.frame, m⟩
  (result, { f with frame := a.frame }, a.machine)

/-- Calls the executable. With `borrow` the results stay in its buffers. -/
def call (f : Executable) (inputs : List Tensor) (borrow : Bool) (m : Machine) :
    Except Error (List Output) × Executable × Machine :=
  f.run (Calling.invoke f.schedule f.context f.id inputs borrow) m

/-- Waits for all work and reports failures that no call has reported. -/
def synchronize (f : Executable) (m : Machine) : Except Error Unit × Executable × Machine :=
  f.run (Calling.synchronize f.context) m

/-- Another executable on the same schedule. -/
def fork (f : Executable) : Action Machine Executable := create f.schedule f.context

/-- Gives back everything that the executable holds. -/
def drop (f : Executable) (m : Machine) : Machine :=
  let (_, f, m) := f.run (Calling.reset f.schedule) m
  f.context.release m

def isPoisoned (f : Executable) : Bool := f.frame.poisoned.isSome

/-- The executable with its structure. -/
def shown (f : Executable) : String :=
  Text.recorded "Function" [("device", Text.quoted f.context.targetDevice.name),
    ("thunks", toString f.schedule.commands.length), ("state", f.frame.phase.tag)]

end Executable

namespace Program

/-- Optimises a program for a context and schedules it. -/
def schedule (c : Context) (p : Program) : Except Error Schedule := do
  p.validate
  let (optimised, report) ← p.runPasses c (← c.config.passes)
  Schedule.build c optimised report

/-- Compiles a program for a context. -/
def compile (c : Context) (p : Program) : Action Machine Executable := do
  Executable.create (← p.schedule c) c

end Program

/-- Builds a program on a graph and compiles it in a context of its own. -/
def Graph.compile [BlockRoutine] (g : Graph) (inputs outputs : List VarId) (updates : List (VarId × VarId))
    (config : Config) : Action Machine Executable := do
  let c ← Context.build config [] .host
  let compiling : Action Machine Executable := do
    (← Program.make g inputs outputs updates).compile c
  let result ← compiling.attempt
  modify c.release
  result

end TensorGraph
