import TensorGraph.Executable.Basic
import TensorGraph.Proofs.Executable.Schedule
import TensorGraph.Proofs.Pass.Pipeline

/-! Compilation as a whole: the schedule of a program on a graph that its methods built lays out a program that
computes the same as the canonical form. -/
namespace TensorGraph

open Checked

namespace Program

variable {p : Program} {c : Context} {scope : Scope}

variable [BlockRoutine]

/-- What a compilation makes of a program. -/
structure CompilesTo (p : Program) (c : Context) (scope : Scope) (p' : Program) (s : Schedule) (l : Layout) :
    Prop where
  canonical : p.canonical c = .ok p'
  valid : p'.Valid (.fresh scope)
  interface : p.SameInterface p'
  laid : s.LaidOut c scope.fusing l
  refines : ∀ math ts cells, p'.Refines s.program (.marked c.target scope.fusing) math ts cells
    (p'.Supplied scope ts cells)

/-- What a call takes, gives and updates is what the program was written to. -/
theorem CompilesTo.sameInterface {p' : Program} {s : Schedule} {l : Layout} (compiles : p.CompilesTo c scope p' s l) :
    p.SameInterface s.program := compiles.interface.trans (compiles.refines {} [] #[]).interface

theorem schedule_meets (sound : p.graph.Sound (.fresh scope)) :
    match p.schedule c with
    | .ok s => p.Valid (.fresh scope) ∧ ∃ p' l, p.CompilesTo c (scope.under c.kernels.Honest) p' s l
    | .error e => p.validate = .ok () → (∃ passes, c.config.passes = .ok passes) →
        ¬ c.Plain ∨ e = .crash ∧ p.Overflows := by
  unfold schedule
  cases accepted : p.validate with
  | error e => exact fun wrong => by cases wrong
  | ok _ =>
    rw [ok_bind]
    have valid := valid_of_validate sound accepted
    cases standard : c.config.passes with
    | error e => exact fun _ ⟨_, wrong⟩ => by cases wrong
    | ok passes =>
      rw [ok_bind]
      have met := fun math ts cells => passes_meet valid standard math ts cells
      unfold PassesMeet at met
      cases ran : p.runPasses c passes with
      | error e =>
        simp only [ran] at met
        exact fun _ _ => met {} [] #[]
      | ok result =>
        obtain ⟨q, report⟩ := result
        simp only [ran] at met
        obtain ⟨p', canonical, valid', same, safely, refines⟩ := met {} [] #[]
        simp only [ok_bind]
        have built := Schedule.build_meets refines.valid safely report
        cases made : Schedule.build c q report with
        | error e =>
          rw [made] at built
          exact fun _ _ => .inl built
        | ok s =>
          rw [made] at built
          obtain ⟨rfl, l, laid⟩ := built
          refine ⟨valid, p', l, canonical, valid', same, laid, fun math ts cells => ?_⟩
          obtain ⟨p'', canonical', -, -, -, refines'⟩ := met math ts cells
          obtain rfl := Except.ok.inj (canonical.symm.trans canonical')
          exact refines'

/-- A compilation that succeeds lays out a program that computes the same as the canonical form. -/
theorem compilesTo_of_schedule (sound : p.graph.Sound (.fresh scope)) {s : Schedule} (compiled : p.schedule c = .ok s) :
    p.Valid (.fresh scope) ∧ ∃ p' l, p.CompilesTo c (scope.under c.kernels.Honest) p' s l := by
  have met := schedule_meets (c := c) sound
  rwa [compiled] at met

/-- A program that is accepted compiles for the host as it comes, unless sizes overflow. -/
theorem exists_schedule (sound : p.graph.Sound (.fresh scope)) (accepted : p.validate = .ok ())
    (passes : ∃ passes, c.config.passes = .ok passes) (plain : c.Plain) :
    (∃ s, p.schedule c = .ok s) ∨ p.schedule c = .error .crash ∧ p.Overflows := by
  have met := schedule_meets (c := c) sound
  cases compiled : p.schedule c with
  | ok s => exact .inl ⟨s, rfl⟩
  | error e =>
    rw [compiled] at met
    obtain ⟨rfl, overflow⟩ := (met accepted passes).resolve_left (not_not.mpr plain)
    exact .inr ⟨rfl, overflow⟩

theorem compilesTo_of_honest (sound : p.graph.Sound (.fresh scope)) (honest : c.kernels.Honest) {s : Schedule}
    (compiled : p.schedule c = .ok s) : p.Valid (.fresh scope) ∧ ∃ p' l, p.CompilesTo c scope p' s l := by
  have compiles := compilesTo_of_schedule sound compiled
  rwa [Scope.under_of_held honest] at compiles

omit [BlockRoutine] in
/-- A compilation fails as the schedule does. -/
theorem compile_start (p : Program) (c : Context) (m : Machine) : (p.compile c).start m =
    match p.schedule c with
    | .ok s => (.ok ⟨m.calls.size, s, c, .fresh s⟩, c.retain { m with calls := m.calls.push 0 })
    | .error e => (.error e, m) := by
  unfold compile
  cases p.schedule c <;> rfl

end Program

/-! Small programs to compile. -/

/-- A vector of integers, its sum, and the sum with its sign changed. -/
def Graph.negatedSum : Graph :=
  let vector := ((empty .f32).input { kind := .i32, rank := 1 } none).1
  let sum := (vector.apply (.reduce .sum none) [0]).1
  (sum.apply (.unary .neg) [1]).1

theorem Graph.built_negatedSum : negatedSum.Built := .apply (.apply (.input (.empty _) _ _) _ _) _ _

/-- From a vector of integers to its sum with the sign changed. -/
def Program.negatedSum : Program := ⟨.negatedSum, [0], [2], []⟩

/-- A vector in double precision with its sign changed. -/
def Graph.wideNegation : Graph :=
  let vector := ((empty .f32).input { kind := .f64, rank := 1 } none).1
  (vector.apply (.unary .neg) [0]).1

theorem Graph.built_wideNegation : wideNegation.Built := .apply (.input (.empty _) _ _) _ _

/-- From a vector in double precision to the same with its sign changed. -/
def Program.wideNegation : Program := ⟨.wideNegation, [0], [1], []⟩

/-- Two persistent values change places. -/
def Program.exchange (c c' : Cell) : Program :=
  ⟨(((Graph.empty .f32).shared c).1.shared c').1, [], [], [(0, 1), (1, 0)]⟩

/-- The context that is built first, for the host as it comes or for a simulated accelerator. -/
def Context.first [BlockRoutine] (target : Target := .host) (fallback : Fallback := .strict)
    (memory : Option Nat := none) : Context :=
  let accelerator := match target with
    | .sim n => some (Device.sim 0 n)
    | _ => none
  ⟨0, { target, fallback, sim := { memory } }, accelerator, .host, accelerator.map Device.table, .host⟩

end TensorGraph
