import TensorGraph.Proofs.Executable.Sited
import TensorGraph.Proofs.World.Calls

/-! Compiled programs and where their values live. Once placement ran every value is where it is read, and the calls
of the executable hand no device a buffer of another one. -/
namespace TensorGraph

open Checked TensorGraph.Action

/-- The error is that a buffer is not where it is used, or that the context has no such place. -/
def Error.Misplaced : Error → Prop
  | device _ _ reason _ => Astray reason
  | configuration reason => ∃ l : Location, reason = l.name ++ " is not part of this context"
  | _ => False

/-- A kernel of the context fails for that reason. -/
def Context.Voices (c : Context) (reason : String) : Prop :=
  ∃ op kernel args e, c.kernels.lookup op = .ok kernel ∧ kernel op args = .error e ∧ e.text = reason

/-- A launch on the machine has failed for that reason, or has not run and its kernel fails for it. -/
def Machine.Recalls (m : Machine) (reason : String) : Prop :=
  ∃ id, (∃ l f, (m.accelerator id).failure? l = some f ∧ f.reason = reason) ∨
    ∃ d ∈ (m.accelerator id).delayed, ∃ args e, d.launch.kernel d.launch.op args = .error e ∧ e.text = reason

/-- An executable of a program after any number of calls, on any machines. -/
inductive Executable.Lives (p : Program) (c : Context) : Executable → Prop where
  | compiled {f : Executable} {m m' : Machine} (ran : (p.compile c).start m = (.ok f, m')) : Lives p c f
  | forked {f g : Executable} {m m' : Machine} (lives : Lives p c f) (ran : f.fork.start m = (.ok g, m')) : Lives p c g
  | called {f g : Executable} {inputs : List Tensor} {borrow : Bool} {m m' : Machine}
      {result : Except Error (List Output)} (lives : Lives p c f) (ran : f.call inputs borrow m = (result, g, m')) :
      Lives p c g
  | synchronized {f g : Executable} {m m' : Machine} {result : Except Error Unit} (lives : Lives p c f)
      (ran : f.synchronize m = (result, g, m')) : Lives p c g

namespace Executable

variable {p : Program} {c : Context} {s : Schedule} {f g : Executable} {home : SlotId → Place}

/-- An executable of a schedule whose buffers are at the homes of their slots. -/
structure Sited (f : Executable) (c : Context) (s : Schedule) (home : SlotId → Place) : Prop where
  context : f.context = c
  schedule : f.schedule = s
  frame : f.frame.Sited c home

theorem sited_of_create {m m' : Machine} (ran : (create s c).start m = (.ok f, m')) : f.Sited c s home := by
  cases ran
  exact ⟨rfl, rfl, .fresh s c home⟩

/-- What runs on an executable leaves its buffers where they belong, and fails for reasons that may be said. -/
theorem Sited.run {α : Type} {act : Calling α} {may : String → Prop} {m m' : Machine} {result : Except Error α}
    (sited : f.Sited c s home) (stays : act.Stays c home may fun _ => True) (logs : m.Logs may)
    (ran : f.run act m = (result, g, m')) : g.Sited c s home ∧ ∀ e, result = .error e → e.Tells may := by
  obtain ⟨a, rfl, -, outcome⟩ := World.run_cases (stays ⟨f.frame, m⟩ ⟨sited.frame, logs⟩) ran
  cases result with
  | ok x => exact ⟨⟨sited.context, sited.schedule, outcome.2.frame⟩, nofun⟩
  | error e =>
    refine ⟨⟨sited.context, sited.schedule, outcome.2.frame⟩, ?_⟩
    rintro _ ⟨⟩
    exact outcome.1

theorem Sited.call {may : String → Prop} {inputs : List Tensor} {borrow : Bool} {m m' : Machine}
    {result : Except Error (List Output)} (sited : f.Sited c s home) (voiced : Voiced c.kernels may)
    (known : s.Sited c home) (logs : m.Logs may) (ran : f.call inputs borrow m = (result, g, m')) :
    g.Sited c s home ∧ ∀ e, result = .error e → e.Tells may := by
  unfold Executable.call at ran
  rw [sited.schedule, sited.context] at ran
  exact sited.run (Calling.invoke_stays voiced known f.id inputs borrow) logs ran

/-- Whatever a machine recalls, calls leave every buffer at the home of its slot. -/
theorem Lives.sited (compiled : p.schedule c = .ok s) (known : s.Sited c home) (lives : f.Lives p c) :
    f.Sited c s home := by
  have voiced : Voiced c.kernels fun _ => True := ⟨fun _ => trivial, fun _ _ => trivial⟩
  have logs : ∀ m : Machine, m.Logs fun _ => True := fun _ _ => ⟨fun _ _ _ => trivial, fun _ _ _ _ _ => trivial⟩
  induction lives with
  | compiled ran =>
    unfold Program.compile at ran
    rw [compiled] at ran
    exact sited_of_create ran
  | @forked f g m m' _ ran sited =>
    unfold fork at ran
    rw [sited.schedule, sited.context] at ran
    exact sited_of_create ran
  | @called f g inputs borrow m m' result _ ran sited =>
    exact (sited.call voiced known (logs m) ran).1
  | @synchronized f g m m' result _ ran sited =>
    unfold synchronize at ran
    rw [sited.context] at ran
    exact (sited.run (Calling.synchronize_kept (Calling.upkeep_sited voiced home)) (logs m) ran).1

/-- Up to every command of a call, buffers are at the homes of their slots. -/
theorem Sited.reaches {inputs : List Tensor} {m : Machine} {done : List Command} {a : Activation}
    (sited : f.Sited c s home) (known : s.Sited c home) (members : done ⊆ s.commands)
    (reaches : f.Reaches inputs m done a) : a.frame.Sited c home := by
  have voiced : Voiced c.kernels fun _ => True := ⟨fun _ => trivial, fun _ _ => trivial⟩
  have stays : (Calling.upTo s c f.id inputs done).Stays c home (fun _ => True) fun _ => True := by
    have up := Calling.upkeep_sited voiced home
    refine (Calling.nextCall_kept up f.id).andThen fun _ => ?_
    refine (Calling.begin_kept up (Calling.leaves_sited known) inputs).andThen fun _ => keeps_forM fun cmd member => ?_
    exact Calling.execute_kept up (Calling.serves_sited voiced (known.command cmd (members member))) s
  unfold Reaches at reaches
  rw [sited.schedule, sited.context] at reaches
  exact ((stays ⟨f.frame, m⟩ ⟨sited.frame, fun _ => ⟨fun _ _ _ => trivial, fun _ _ _ _ _ => trivial⟩⟩).of_ok reaches).2.frame

end Executable

/-- Values are where they are used, in the compiled program and in its calls. -/
structure Program.SoundlyLocated (p : Program) (c : Context) (s : Schedule) : Prop where
  /-- From placement on, every pass leaves every value where it is read. -/
  program : ∃ passes, c.config.passes = .ok passes ∧ .placement ∈ passes ∧ ∀ done rest, passes = done ++ rest →
    .placement ∈ done → ∃ q report, p.runPasses c done = .ok (q, report) ∧ q.graph.Located
  /-- When a kernel is launched, the device accepts each of its operands. -/
  operands : ∀ {f : Executable} {inputs : List Tensor} {m : Machine} {done rest : List Command} {cmd : Command}
    {kernel : Kernel} {a : Activation}, f.Lives p c → f.Reaches inputs m done a → s.commands = done ++ cmd :: rest →
      cmd.work = .launch kernel → ∃ d, c.device cmd.location = .ok d ∧ ∀ x ∈ cmd.inputs, ∀ b,
        a.frame.buffer? x.slot = some b → d.operand cmd.label b = .ok b
  /-- A call that fails as if a buffer were elsewhere repeats what a kernel says, now or earlier. -/
  calls : ∀ {f : Executable}, f.Lives p c → ∀ (inputs : List Tensor) (borrow : Bool) (m : Machine) (e : Error),
    (f.call inputs borrow m).1 = .error e → e.Misplaced → ∃ name op reason fatal,
      e = .device name op reason fatal ∧ (c.Voices reason ∨ m.Recalls reason)

namespace Program

variable {p : Program} {c : Context} {s : Schedule}

/-- Whatever compiles, with any tables and any passes left out, uses its values where they are. -/
theorem soundlyLocated_of_schedule (compiled : p.schedule c = .ok s) : p.SoundlyLocated c s := by
  obtain ⟨⟨⟩, accepted, compiling⟩ := bind_eq_ok.mp compiled
  obtain ⟨passes, standard, compiling⟩ := bind_eq_ok.mp compiling
  obtain ⟨⟨final, report⟩, ran, built⟩ := bind_eq_ok.mp compiling
  have placed : .placement ∈ passes := by
    obtain ⟨rfl, kept⟩ := PassName.standard_ok standard
    exact List.mem_filter.mpr ⟨by decide, by simpa [PassName.name] using kept⟩
  have located : final.Located := located_of_runPasses accepted standard (List.append_nil _).symm placed ran
  obtain ⟨home, known⟩ := Schedule.sited_of_build located built
  refine ⟨⟨passes, standard, placed, fun done rest split inDone => ?_⟩, ?_, ?_⟩
  · rw [split] at ran
    obtain ⟨next, first, -, before, -⟩ := runPasses_append ran
    exact ⟨next, first, before, (located_of_runPasses accepted standard split inDone before).graph⟩
  · intro f inputs m done rest cmd kernel a lives reaches split runs
    have member : cmd ∈ s.commands := by simp [split]
    have frame := (lives.sited compiled known).reaches known (by simp [split]) reaches
    obtain ⟨d, device⟩ := (known.command cmd member).device
    refine ⟨d, device, fun x reads b at_ => Device.operand_ok ?_ cmd.label⟩
    have housed := frame x.slot b at_
    rw [((known.command cmd member).operands kernel runs).2 x reads] at housed
    exact housed.on device
  · intro f lives inputs borrow m e failed misplaced
    have sited := lives.sited compiled known
    -- A device may say that a buffer is elsewhere only where a kernel said so.
    let may : String → Prop := fun reason => Astray reason → c.Voices reason ∨ m.Recalls reason
    have voiced : Voiced c.kernels may :=
      ⟨fun here astray => absurd astray here, fun looked failed _ => .inl ⟨_, _, _, _, looked, failed, rfl⟩⟩
    have logs : m.Logs may := fun id =>
      ⟨fun l f failed _ => .inr ⟨id, .inl ⟨l, f, failed, rfl⟩⟩,
        fun d member args e failed _ => .inr ⟨id, .inr ⟨d, member, args, e, failed, rfl⟩⟩⟩
    rcases ran : f.call inputs borrow m with ⟨result, g, m'⟩
    rw [ran] at failed
    have tells := (sited.call voiced known logs ran).2 e failed
    cases e with
    | device name op reason fatal => exact ⟨name, op, reason, fatal, rfl, tells misplaced⟩
    | configuration reason => exact absurd tells id
    | _ => exact absurd misplaced id

end Program

section

open scoped BlockRoutine

/-- A program for an accelerator, whose sum is computed there. -/
theorem Program.soundlyLocated_negatedSum : ∃ s, Program.negatedSum.schedule (.first (.sim 0)) = .ok s ∧
    Program.negatedSum.SoundlyLocated (.first (.sim 0)) s := by
  have runs : (Program.negatedSum.schedule (.first (.sim 0))).isOk := by decide +kernel
  obtain ⟨s, compiled⟩ := exists_of_isOk runs
  exact ⟨s, compiled, Program.soundlyLocated_of_schedule compiled⟩

end

end TensorGraph
