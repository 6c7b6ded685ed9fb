import TensorGraph.Proofs.Program.Evaluate
import TensorGraph.Proofs.World.Outcomes

/-! Compilation for the host is correct from end to end: a call gives what the operations of the source give when they
are evaluated one after the other. -/
namespace TensorGraph

open Checked TensorGraph.Action

/-- On the host, without flags that trade accuracy, kernels run with the default options. -/
theorem Context.mathAt_host {c : Context} (host : c.accelerator = none) (precise : c.config.relaxed = []) :
    c.mathAt = fun _ => {} := by
  have math : c.config.math = {} := by simp [Config.math, precise]
  funext place
  cases place with
  | none => rfl
  | some loc =>
    cases loc with
    | host =>
      unfold mathAt mathMode
      rw [math]
      rfl
    | device n => simp [mathAt, mathMode, device, host, absent, Except.toOption]

namespace Program

/-- The compiled program does what the source does. -/
theorem CompilesTo.refines_source [BlockRoutine] {p p' : Program} {c : Context} {cells : List Cell} {s : Schedule} {l : Layout}
    (compiles : p.CompilesTo c (within Op.Rearranges cells) p' s l)
    (valid : p.Valid (.fresh (within Op.Rearranges cells)))
    (honest : c.kernels.Honest) {ts : List Tensor} {values : Array Tensor} (takes : p.Takes ts)
    (typed : ∀ c ∈ cells, c.Typed values) :
    p.Refines s.program (.marked c.target (within Op.Rearranges cells).fusing) {} ts values True := by
  have regular : True → ¬ c.config.excluded.contains PassName.canonicalize.name →
      Canonical.Regular c.kernels p (within Op.Rearranges cells) {} ts values := fun _ _ =>
    ⟨honest, trivial, fun _ _ held => held.1, rfl, takes, typed⟩
  have canonical := canonical_meets valid regular
  rw [compiles.canonical] at canonical
  exact canonical.trans ((compiles.refines {} ts values).imp fun _ =>
    ⟨trivial, unfused_within _ cells, compiles.interface.takes takes, typed⟩)

end Program

namespace World

variable {w : World} {p : Program} {c : Context}

/-- Every program that is accepted compiles for the host as it comes, unless sizes overflow where constants are folded.
Whatever the table of the host says, a call gives the outputs of the program's evaluation; it fails when the evaluation
does, and only then, at extents that do not agree. A crash takes sizes of the program that overflow. -/
theorem host_call_evaluates [BlockRoutine] (reachable : Reachable True w) (fresh : w.Fresh p) (accepted : p.validate = .ok ())
    (ordinary : p.Within Op.Rearranges) (host : c.accelerator = none) (kernels : c.kernels = .host)
    (precise : c.config.relaxed = []) :
    (c.hostTable = .host → (∃ passes, c.config.passes = .ok passes) →
      (∃ s, p.schedule c = .ok s) ∨ p.schedule c = .error .crash ∧ p.Overflows) ∧
    ∀ s, p.schedule c = .ok s →
      ∀ before f after, w.executables = before ++ f :: after → f.schedule = s → f.context = c →
      ∀ inputs, Calling.accept s inputs = .ok () →
        match p.evaluate inputs w.machine.cells with
        | .ok ts => ∃ g m, f.call inputs false w.machine = (.ok (ts.map .host), g, m)
        | .error e => p.BreaksOff {} inputs w.machine.cells e ∧
            ∃ e' g m, f.call inputs false w.machine = (.error e', g, m) ∧ p.BreaksOff {} inputs w.machine.cells e' := by
  have good := reachable.good
  have honest : c.kernels.Honest := kernels ▸ Kernels.honest_host
  have sound := ordinary.sound fresh
  refine ⟨fun table passes => p.exists_schedule sound accepted passes ⟨host, table, kernels⟩, ?_⟩
  intro s compiled
  obtain ⟨valid, p', l, compiles⟩ := Program.compilesTo_of_honest sound honest compiled
  rintro before f after split rfl rfl inputs acceptedInputs
  have accepts : f.Accepts inputs := ⟨good.usable trivial f (by simp [split]), acceptedInputs⟩
  obtain ⟨scope, l', -, fits⟩ := good.fits (by simp [split] : f ∈ w.executables) inputs
  have fits := fits accepts
  have takes : p.Takes inputs := compiles.sameInterface.inputs.trans fits.takes
  have typed : ∀ c ∈ w.cells, c.Typed w.machine.cells := fun c member => (good.typed c member).2
  have refines := compiles.refines_source valid honest takes typed
  have same := refines.values trivial
  have value : f.schedule.program.value {} inputs w.machine.cells = (f.course inputs w.machine).value := by
    funext v
    rw [Course.value, Program.value]
    congr 1
    exact (Context.mathAt_host host precise).symm
  unfold Program.SameValues at same
  rw [value] at same
  have evaluated := p.evaluate_spec valid takes typed
  cases result : p.evaluate inputs w.machine.cells with
  | error e =>
    rw [result] at evaluated
    obtain ⟨breaks, v, root, without⟩ := evaluated
    obtain ⟨e', g, m, ran, stops, -⟩ := good.call_fails split accepts
      ((Program.valueless_iff same).mp ⟨v, root, without⟩)
    exact ⟨breaks, e', g, m, ran, (stops.breaksOff fits value).mono (refines.calm trivial)⟩
  | ok us =>
    rw [result] at evaluated
    obtain ⟨outputs, valued⟩ := evaluated
    obtain ⟨os, g, m, ran, given, -⟩ := good.call_succeeds split accepts ((Program.valued_iff same).mp valued)
    have equal := Program.outputs_of_roots same compiles.sameInterface.outputs
    rw [← List.forall₂_eq_eq_eq, List.forall₂_map_left_iff, List.forall₂_map_right_iff] at equal
    have hosted : List.Forall₂ (fun (t : Tensor) o => .host t = o) us os := by
      have known : List.Forall₂ (fun (t : Tensor) v => (f.course inputs w.machine).value v = some t) us
          f.schedule.program.outputs :=
        forall₂_through outputs.flip equal fun t v v' known same => same.symm.trans known
      refine forall₂_through known given ?_
      rintro t v o value ⟨t', value', rfl⟩
      rw [Option.some.inj (value.symm.trans value')]
    rw [← List.forall₂_map_left_iff (f := Output.host), List.forall₂_eq_eq_eq] at hosted
    exact ⟨g, m, hosted ▸ ran⟩

section

open scoped BlockRoutine

theorem host_call_evaluates_negatedSum : ∃ w f g m, Reachable True w ∧ w.executables = [f] ∧
    f.call [.vector ⟨.i32, #[1, 2, 3]⟩] false w.machine = (.ok [.host (.scalar (-6 : Elem .i32))], g, m) := by
  obtain ⟨w, f, reachable, alone, context, compiled, accepts, fresh, cells⟩ := reachable_negatedSum True {} .first
    (.vector ⟨.i32, #[1, 2, 3]⟩) (fun _ => ⟨rfl, fun _ _ => ⟨rfl, rfl⟩⟩) rfl (by decide +kernel)
  have within : Program.negatedSum.Within Op.Rearranges := Program.within_negatedSum fun _ => nofun
  have called := (host_call_evaluates reachable fresh rfl within (c := .first) rfl rfl rfl).2 f.schedule compiled
    [] f [] alone rfl context _ accepts.inputs
  have evaluated : Program.negatedSum.evaluate [.vector ⟨.i32, #[1, 2, 3]⟩] #[] = .ok [.scalar (-6 : Elem .i32)] := by
    obtain ⟨n, n', live, op, inputs, output, op', inputs', output'⟩ : ∃ n n', Program.negatedSum.liveNodes = [n, n'] ∧
        n.op = .reduce .sum none ∧ n.inputs = [0] ∧ n.output = 1 ∧ n'.op = .unary .neg ∧ n'.inputs = [1] ∧
        n'.output = 2 := ⟨_, _, rfl, rfl, rfl, rfl, rfl, rfl, rfl⟩
    have leaf : Program.negatedSum.leafValues [.vector ⟨.i32, #[1, 2, 3]⟩] #[] 0 = some (.vector ⟨.i32, #[1, 2, 3]⟩) :=
      rfl
    have summed : (Op.reduce .sum none).eval {} [.vector ⟨.i32, #[1, 2, 3]⟩] = .ok (.scalar (6 : Elem .i32)) := rfl
    have negated : (Op.unary .neg).eval {} [.scalar (6 : Elem .i32)] = .ok (.scalar (-6 : Elem .i32)) := rfl
    simp [Program.evaluate, live, Program.Known.next, op, inputs, output, op', inputs', output', Program.Known.get, leaf,
      summed, negated, show Program.negatedSum.outputs = [2] from rfl]
  have empty : w.machine.cells = #[] := cells
  simp only [empty, evaluated] at called
  obtain ⟨g, m, called⟩ := called
  exact ⟨w, f, g, m, reachable, alone, called⟩

/-- The evaluation breaks off at the first sum. A call comes to the other one first, since the first one is computed
together with the change of its sign. -/
theorem call_crashes_lateNegation : Program.lateNegation.graph.Built ∧ ∃ f m g m' e,
    (Program.lateNegation.compile .first).start {} = (.ok f, m) ∧
    Calling.accept f.schedule Program.disagreeing = .ok () ∧
    Program.lateNegation.evaluate Program.disagreeing #[] = .error e ∧ e.IsShape ∧
    f.call Program.disagreeing false m = (.error .crash, g, m') := by
  have runs : (((Program.lateNegation.compile .first).start {}).1.toOption.bind fun f =>
      failure? (f.call Program.disagreeing false ((Program.lateNegation.compile .first).start {}).2).1) =
        some .crash := by decide +kernel
  have accepts : ((Program.lateNegation.compile .first).start {}).1.toOption.any fun f =>
      (Calling.accept f.schedule Program.disagreeing).isOk := by decide +kernel
  have evaluated : failure? (Program.lateNegation.evaluate Program.disagreeing #[]) =
      some (.shape "add" "cannot broadcast [2] with [3]") := by decide +kernel
  generalize (Program.lateNegation.compile .first).start {} = started at runs accepts
  obtain ⟨result, m⟩ := started
  cases result with
  | error e => cases runs
  | ok f =>
    obtain ⟨_, accepted⟩ := exists_of_isOk accepts
    exact ⟨Program.built_lateNegation, f, m, _, _, _, rfl, accepted, eq_error_of_failure evaluated, ⟨_, _, rfl⟩,
      Prod.ext (eq_error_of_failure runs) rfl⟩

end

end World

end TensorGraph
