import TensorGraph.Proofs.Executable.Compiled
import TensorGraph.Proofs.Executable.Invoke

/-! Everything that a user of the library can do, one operation after the other, and what is so after any number of
them: the books of all blocks are kept, and every executable is ready to be called. -/
namespace TensorGraph

open Checked TensorGraph.Action

variable [BlockRoutine]

/-- Kernels and a configuration under which nothing is bound to fail. -/
structure Config.Faultless (config : Config) (kernels : Kernels) : Prop where
  kernels : kernels = .host
  sim : ∀ n, config.target = .sim n → config.sim.fault = none ∧ config.sim.memory = none

/-- What a user of the library has: persistent values, contexts, executables, and results that were not dropped. -/
structure World where
  machine : Machine := {}
  cells : List Cell := []
  contexts : List Context := []
  executables : List Executable := []
  outputs : List Output := []

namespace World

/-- A program that the methods of a graph built on persistent values that exist. -/
structure Fresh (w : World) (p : Program) : Prop where
  built : p.graph.Built
  cells : ∀ {v : VarId} {x : Var} {c : Cell}, p.graph.vars[v]? = some x → x.origin = .shared c → c ∈ w.cells

/-- What an operation gives, if it succeeds. -/
def gained {α : Type} : Except Error α → List α
  | .ok x => [x]
  | .error _ => []

/-- The results of a call, if it succeeded. -/
def results : Except Error (List Output) → List Output
  | .ok os => os
  | .error _ => []

/-- One operation. The kernels of a context may fail, but compute nothing else than the reference kernels do. In a
history that is faultless no context has anything that is bound to fail. -/
inductive Step (faultless : Prop) : World → World → Prop where
  | create {w : World} {m : Machine} {c : Cell} (t : Tensor) (ran : (Cell.create t).start w.machine = (.ok c, m)) :
    Step faultless w { w with machine := m, cells := c :: w.cells }
  | write {w : World} {m : Machine} {c : Cell} {result : Except Error Unit} (known : c ∈ w.cells) (t : Tensor)
    (ran : (c.write t).start w.machine = (result, m)) : Step faultless w { w with machine := m }
  | context {w : World} {m : Machine} {result : Except Error Context} (config : Config) (tables : List Table)
    {kernels : Kernels} (honest : kernels.Honest) (sound : faultless → config.Faultless kernels)
    (ran : (Context.build config tables kernels).start w.machine = (result, m)) :
    Step faultless w { w with machine := m, contexts := gained result ++ w.contexts }
  | compile {w : World} {m : Machine} {c : Context} {result : Except Error Executable} (known : c ∈ w.contexts)
    (p : Program) (fresh : w.Fresh p) (ran : (p.compile c).start w.machine = (result, m)) :
    Step faultless w { w with machine := m, executables := gained result ++ w.executables }
  | fork {w : World} {m : Machine} {f : Executable} {result : Except Error Executable} (known : f ∈ w.executables)
    (ran : f.fork.start w.machine = (result, m)) :
    Step faultless w { w with machine := m, executables := gained result ++ w.executables }
  | call {w : World} {m : Machine} {before after : List Executable} {f g : Executable}
    {result : Except Error (List Output)} (split : w.executables = before ++ f :: after) (inputs : List Tensor)
    (borrow : Bool) (ran : f.call inputs borrow w.machine = (result, g, m)) :
    Step faultless w
      { w with machine := m, executables := before ++ g :: after, outputs := results result ++ w.outputs }
  | synchronize {w : World} {m : Machine} {before after : List Executable} {f g : Executable}
    {result : Except Error Unit} (split : w.executables = before ++ f :: after)
    (ran : f.synchronize w.machine = (result, g, m)) :
    Step faultless w { w with machine := m, executables := before ++ g :: after }
  | read {w : World} {m : Machine} {o : Output} {result : Except Error Tensor} (known : o ∈ w.outputs)
    (ran : o.toHost.start w.machine = (result, m)) : Step faultless w { w with machine := m }
  | wait {w : World} {m : Machine} {c : Context} {result : Except Error Unit} (known : c ∈ w.contexts)
    (ran : c.synchronize.start w.machine = (result, m)) : Step faultless w { w with machine := m }
  | dropOutput {w : World} {before after : List Output} {o : Output} (split : w.outputs = before ++ o :: after) :
    Step faultless w { w with machine := o.release w.machine, outputs := before ++ after }
  | dropExecutable {w : World} {before after : List Executable} {f : Executable}
    (split : w.executables = before ++ f :: after) :
    Step faultless w { w with machine := f.drop w.machine, executables := before ++ after }
  | dropContext {w : World} {before after : List Context} {c : Context} (split : w.contexts = before ++ c :: after) :
    Step faultless w { w with machine := c.release w.machine, contexts := before ++ after }

/-- What operations lead to. -/
inductive Reachable (faultless : Prop) : World → Prop where
  | start (processors : Nat) (alert : Bool) : Reachable faultless { machine := { processors, alert } }
  | step {w w' : World} (reachable : Reachable faultless w) (step : Step faultless w w') : Reachable faultless w'

/-- A context of the user, or of an executable. -/
def Uses (w : World) (c : Context) : Prop := c ∈ w.contexts ∨ ∃ f ∈ w.executables, f.context = c

/-- How many slots of some executables refer to a block. -/
def refsOf (fs : List Executable) (k : Key) : Nat := (fs.map fun f => f.frame.refs k).sum

end World

namespace Executable

/-- The buffers of an executable are where its context works, and its kept uploads carry their constants. -/
structure Rests (f : Executable) (m : Machine) : Prop where
  slots : f.frame.slots.size = f.schedule.slotCount
  shapes : f.frame.shapes.size = f.schedule.program.graph.vars.size
  owned : ∀ {slot : SlotId} {r : BlockRef}, f.frame.buffer? slot = some (.owned r) →
    f.context.Owns r.device ∧ m.Backs r
  keeps : f.schedule.Keeps f.context ⟨f.frame, m⟩

/-- The next call of an executable with some arguments. -/
def course (f : Executable) (inputs : List Tensor) (m : Machine) : Course :=
  Course.next f.schedule f.context f.id inputs m

/-- A call with these arguments is not refused. -/
structure Accepts (f : Executable) (inputs : List Tensor) : Prop where
  usable : f.frame.poisoned = none
  inputs : Calling.accept f.schedule inputs = .ok ()

/-- The executable was made for a program whose marks are safe, on some persistent values. -/
def Laid (f : Executable) (cells : List Cell) : Prop :=
  ∃ scope l, f.schedule.LaidOut f.context scope l ∧ scope.typed ∧ ∀ c, scope.cell c → c ∈ cells

variable {f : Executable} {m m' : Machine} {ext : Key → Nat}

omit [BlockRoutine] in
theorem Laid.mono {cells cells' : List Cell} (laid : f.Laid cells) (more : cells ⊆ cells') : f.Laid cells' := by
  obtain ⟨scope, l, out, typed, known⟩ := laid
  exact ⟨scope, l, out, typed, fun c held => more (known c held)⟩

theorem Rests.of_sees (rests : f.Rests m) (sees : ∀ k, 0 < f.frame.refs k → m'.sees k = m.sees k) : f.Rests m' where
  slots := rests.slots
  shapes := rests.shapes
  owned {slot r} at_ := by
    obtain ⟨owns, backs⟩ := rests.owned at_
    have isIn : Buffer.isIn r.key (f.frame.buffer? slot) := by simp [at_, Buffer.isIn]
    exact ⟨owns, backs.of_sees (sees _ (Frame.refs_pos isIn))⟩
  keeps cmd member kept b at_ := by
    obtain ⟨clean, shown⟩ := rests.keeps cmd member kept b at_
    have same : ∀ k, Buffer.isIn k (some b) → m'.sees k = m.sees k := fun k isIn =>
      sees k (Frame.refs_pos (at_.symm ▸ isIn : Buffer.isIn k (f.frame.buffer? cmd.output.slot)))
    exact ⟨(Machine.contents_congr same).2.trans clean, fun args start => (shown args start).of_sees at_ same⟩

theorem rests_of_settled (settled : f.schedule.Settled f.context ext ⟨f.frame, m⟩) : f.Rests m :=
  ⟨settled.slots, settled.shapes, settled.tidy.owned, settled.keeps⟩

omit [BlockRoutine] in
theorem buffer?_fresh (s : Schedule) (slot : SlotId) : (Frame.fresh s).buffer? slot = none := by
  simp only [Frame.fresh, Frame.buffer?, Array.getElem?_replicate]
  split <;> rfl

/-- A new executable holds nothing. -/
theorem rests_fresh {s : Schedule} {c : Context} {id : ExecutableId} : Rests ⟨id, s, c, .fresh s⟩ m := by
  refine ⟨by simp [Frame.fresh], by simp [Frame.fresh], fun {slot r} at_ => ?_, fun cmd member kept b at_ => ?_⟩
  · cases (buffer?_fresh s slot).symm.trans at_
  · cases (buffer?_fresh s _).symm.trans at_

end Executable

/-- A handle is on a buffer that still carries its tensor. -/
def Handle.Lives (h : Handle) (m : Machine) : Prop :=
  m.Has h.device ∧ ∃ t, m.Carries h.buffer h.device t ∧ h.shape = t.shape

namespace World

/-- What is so after any history. -/
structure Good (faultless : Prop) (w : World) : Prop where
  sane : w.machine.Sane
  held : ∀ k, w.machine.held k = refsOf w.executables k + Output.holdsAll w.outputs k
  has : ∀ c, w.Uses c → ∀ d, c.Owns d → w.machine.Has d
  honest : ∀ c, w.Uses c → c.kernels.Honest
  laid : ∀ f ∈ w.executables, f.Laid w.cells
  rests : ∀ f ∈ w.executables, f.Rests w.machine
  handles : ∀ o ∈ w.outputs, ∀ h, o = .borrowed h → h.Lives w.machine
  typed : ∀ c ∈ w.cells, c.id < w.machine.cells.size ∧ c.Typed w.machine.cells
  numbered : ∀ c ∈ w.cells, ∀ c' ∈ w.cells, c.id = c'.id → c = c'
  counted : ∀ f ∈ w.executables, f.id < w.machine.calls.size
  reliable : faultless → ∀ c, w.Uses c → c.Reliable w.machine
  usable : faultless → ∀ f ∈ w.executables, f.frame.poisoned = none

variable {faultless : Prop} {w : World}

theorem good_start (processors : Nat) (alert : Bool) : Good faultless { machine := { processors, alert } } where
  sane id := by
    refine ⟨⟨rfl, rfl⟩, fun {b l} writer => ?_, fun {b} _ => rfl⟩
    cases writer
  held k := by
    obtain ⟨home, b⟩ := k
    cases home <;> rfl
  has c uses := by rcases uses with none | ⟨f, none, -⟩ <;> cases none
  honest c uses := by rcases uses with none | ⟨f, none, -⟩ <;> cases none
  laid f none := by cases none
  rests f none := by cases none
  handles o none := by cases none
  typed c none := by cases none
  numbered c none := by cases none
  counted f none := by cases none
  reliable _ c uses := by rcases uses with none | ⟨f, none, -⟩ <;> cases none
  usable _ f none := by cases none

end World

end TensorGraph
