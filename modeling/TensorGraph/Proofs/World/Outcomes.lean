import TensorGraph.Proofs.World.Calls

/-! What comes of a call is decided by the values of its results. So earlier calls leave no trace in it, and devices
that fail show in errors only. -/
namespace TensorGraph

open Checked TensorGraph.Action

/-- Kernel options depend on the flags and on where the target is. -/
theorem Context.mathAt_congr {c c' : Context} (target : c.target = c'.target)
    (relaxed : c.config.relaxed = c'.config.relaxed) : c.mathAt = c'.mathAt := by
  have math : c.config.math = c'.config.math := by
    unfold Config.math
    rw [relaxed]
  -- A location beyond the host is found exactly when it is the target.
  have known : ∀ (c : Context) (n : Nat), c.mathAt (some (.device n)) =
      if c.target = .device n then { c.config.math with pairwiseSum := true } else {} := by
    intro c n
    unfold mathAt mathMode device Context.target targetDevice
    cases c.accelerator with
    | none => rfl
    | some d =>
      cases d with
      | host => rfl
      | sim id m =>
        by_cases same : m = n
        · simp [Device.location, same, Device.mathMode, Except.toOption]
        · simp [Device.location, same, absent, Except.toOption]
  funext place
  cases place with
  | none => rfl
  | some loc =>
    cases loc with
    | host =>
      unfold mathAt mathMode
      rw [math]
      rfl
    | device n => rw [known, known, target, math]

namespace Calling

theorem checkInputs_of_fits {i : Nat} {expected : List (Site × Ty)} {ts : List Tensor}
    (fits : List.Forall₂ (fun e (t : Tensor) => t.kind = e.2.kind ∧ t.rank = e.2.rank) expected ts) :
    checkInputs i expected ts = .ok () := by
  induction fits generalizing i with
  | nil => rfl
  | @cons e t expected ts here _ ih =>
    obtain ⟨x, ty⟩ := e
    obtain ⟨kind, rank⟩ := here
    unfold checkInputs
    simp only [kind, rank, ne_eq, not_true_eq_false, ↓reduceIte]
    exact ih

/-- Arguments are accepted exactly when the program takes them. -/
theorem accept_iff {s : Schedule} {c : Context} {scope : Scope} {l : Layout} (laid : s.LaidOut c scope l)
    {ts : List Tensor} : accept s ts = .ok () ↔ s.program.Takes ts := by
  refine ⟨accept_ok laid, fun takes => ?_⟩
  have typed := takes
  rw [Program.Takes, ← List.forall₂_eq_eq_eq, List.forall₂_map_left_iff, List.forall₂_map_right_iff] at typed
  have lengths : ts.length = s.inputs.length := takes.length_eq.symm.trans laid.inputs.length_eq
  unfold accept
  simp only [lengths, ne_eq, not_true_eq_false, ↓reduceIte]
  refine checkInputs_of_fits (forall₂_through laid.inputs.flip typed ?_)
  rintro e v t ⟨-, x, atV, ty⟩ same
  simp only [Program.typeOf, atV, Option.map_some, Option.some.injEq, Prod.mk.injEq] at same
  rw [ty]
  exact ⟨same.1.symm, same.2.symm⟩

end Calling

section

variable [BlockRoutine]

namespace Course

variable {r r' : Course} {scope scope' : Scope} {l l' : Layout} {ext : Key → Nat} {a : Activation} {f : ExecutableId}
  {call : Nat} {borrow : Bool} {os : List Output}

/-- All results of a call that succeeded have values. -/
theorem Ends.root_value (fits : r.Fits scope l) (ends : r.Ends ext f call borrow os a) :
    ∀ v ∈ r.schedule.program.roots, (r.value v).isSome := by
  intro v root
  obtain ⟨x, inSites, rfl, -⟩ := partner fits.laid.roots root
  rcases List.mem_append.mp inSites with output | value
  · obtain ⟨o, -, t, value, -⟩ := partner ends.outputs output
    rw [value]
    rfl
  · obtain ⟨u, member, rfl⟩ := List.mem_map.mp value
    exact ends.values u member

/-- The results of a call that are not left on a device. -/
theorem Ends.host_outputs (fits : r.Fits scope l) (ends : r.Ends ext f call false os a) :
    List.Forall₂ (fun v o => ∃ t, r.value v = some t ∧ o = .host t) r.schedule.program.outputs os := by
  refine forall₂_through fits.laid.outputs ends.outputs ?_
  rintro v x o ⟨rfl, -⟩ ⟨t, value, gives⟩
  cases o with
  | host u =>
    obtain ⟨-, rfl⟩ := gives
    exact ⟨u, value, rfl⟩
  | borrowed h =>
    obtain ⟨wrong, -⟩ := gives
    cases wrong

theorem written_congr {us us' : List (Cell × Site)} (targets : us.map Prod.fst = us'.map Prod.fst)
    (values : us.map (fun u => r.value u.2.var) = us'.map fun u => r'.value u.2.var) (cells : Array Tensor) :
    r.written us cells = r'.written us' cells := by
  induction us generalizing us' cells with
  | nil =>
    obtain rfl := List.map_eq_nil_iff.mp targets.symm
    rfl
  | cons u us ih =>
    cases us' with
    | nil => cases targets
    | cons u' us' =>
      simp only [List.map_cons, List.cons.injEq] at targets values
      rw [written, written, List.foldl_cons, List.foldl_cons, ← written, ← written, ih targets.2 values.2,
        targets.1, values.1]

/-- Calls with the same results leave the same persistent values. -/
theorem after_congr (fits : r.Fits scope l) (fits' : r'.Fits scope' l')
    (interface : r.schedule.program.SameInterface r'.schedule.program)
    (roots : r.schedule.program.roots.map r.value = r'.schedule.program.roots.map r'.value)
    (cells : r.start.cells = r'.start.cells) : r.after = r'.after := by
  have targets := interface.updates
  rw [fits.laid.update_cells, fits'.laid.update_cells] at targets
  rw [Program.roots, Program.roots, List.map_append, List.map_append] at roots
  have values := (List.append_inj roots (by simpa using interface.outputs)).2
  rw [fits.laid.update_vars, fits'.laid.update_vars, List.map_map, List.map_map] at values
  unfold after
  rw [cells]
  exact written_congr (List.map_injective_iff.mpr (fun _ _ => Option.some.inj) targets) values _

end Course

namespace Executable

variable {f f' : Executable} {inputs : List Tensor} {m m' : Machine}

/-- The second executable runs the program that the first one runs, with the same kernel options. -/
structure Twin (f f' : Executable) : Prop where
  program : f.schedule.program = f'.schedule.program
  target : f.context.target = f'.context.target
  relaxed : f.context.config.relaxed = f'.context.config.relaxed

theorem Twin.value (twin : f.Twin f') (cells : m.cells = m'.cells) :
    (f.course inputs m).value = (f'.course inputs m').value := by
  funext v
  simp only [Course.value, course, Course.next, cells, twin.program, Context.mathAt_congr twin.target twin.relaxed]

theorem Twin.roots (twin : f.Twin f') (cells : m.cells = m'.cells) :
    f.schedule.program.roots.map (f.course inputs m).value =
      f'.schedule.program.roots.map (f'.course inputs m').value := by
  rw [twin.program, twin.value cells]

end Executable

end

namespace Program

variable {p q : Program} {value value' : VarId → Option Tensor}

/-- Every operation is one that is allowed on the kinds of its operands, and none is a fused expression. -/
structure Within (p : Program) (allowed : Op → Kind → Prop) : Prop where
  unfused : ∀ n ∈ p.graph.nodes, ∀ e, n.op ≠ .fused e
  allowed : ∀ n ∈ p.graph.nodes, ∀ v ∈ n.inputs, ∀ x, p.graph.vars[v]? = some x → allowed n.op x.ty.kind

/-- Operations that are allowed, on some persistent values. -/
def within (allowed : Op → Kind → Prop) (cells : List Cell) : Scope :=
  ⟨fun op k => allowed op k ∧ ∀ e, op ≠ .fused e, (· ∈ cells), True⟩

theorem unfused_within (allowed : Op → Kind → Prop) (cells : List Cell) : (within allowed cells).Unfused :=
  fun e _ held => held.2 e rfl

theorem Within.sound {allowed : Op → Kind → Prop} (inside : p.Within allowed) {w : World} (fresh : w.Fresh p) :
    p.graph.Sound (.fresh (within allowed w.cells)) := by
  refine fresh.built.sound.fresh (fun {i n tys} at_ types t member => ?_) fresh.cells
  have inNodes : n ∈ p.graph.nodes := Array.mem_of_getElem? at_
  obtain ⟨v, reads, x, atV, rfl⟩ := partner_of types member
  exact ⟨inside.allowed n inNodes v reads x atV, inside.unfused n inNodes⟩

/-- All operations of this program are on integers. -/
theorem within_negatedSum {allowed : Op → Kind → Prop} (integers : ∀ op, allowed op .i32) :
    negatedSum.Within allowed where
  unfused n member e isFused := by
    have ops : negatedSum.graph.nodes.toList.map Node.op = [.reduce .sum none, .unary .neg] := rfl
    have known := List.mem_map_of_mem (f := Node.op) (Array.mem_toList_iff.mpr member)
    rw [ops, isFused] at known
    simp at known
  allowed n _ v _ x atV := by
    have kinds : negatedSum.graph.vars.all (fun x => x.ty.kind == .i32) = true := by decide +kernel
    have kind := Array.all_eq_true_iff_forall_mem.mp kinds x (Array.mem_of_getElem? atV)
    rw [beq_iff_eq.mp kind]
    exact integers n.op

/-- Of two programs with the same results, neither or each has one without a value. -/
theorem valueless_iff (same : p.roots.map value = q.roots.map value') :
    (∃ v ∈ p.roots, value v = none) ↔ ∃ v ∈ q.roots, value' v = none := by
  rw [← List.mem_map, ← List.mem_map, same]

theorem valued_iff (same : p.roots.map value = q.roots.map value') :
    (∀ v ∈ p.roots, (value v).isSome) ↔ ∀ v ∈ q.roots, (value' v).isSome := by
  rw [← List.forall_mem_map (P := fun t : Option Tensor => t.isSome), same, List.forall_mem_map]

theorem outputs_of_roots (same : p.roots.map value = q.roots.map value')
    (lengths : p.outputs.length = q.outputs.length) :
    p.outputs.map value = q.outputs.map value' := by
  rw [roots, roots, List.map_append, List.map_append] at same
  exact (List.append_inj same (by simpa using lengths)).1

end Program

namespace World

variable {w : World} {m : Machine} {before after : List Executable} {f g : Executable} {inputs : List Tensor}
  {borrow : Bool}

section

variable [BlockRoutine]

/-- Where nothing can fail, a call that is accepted fails only if the operands of some command disagree. -/
theorem Good.call_reliable (good : Good True w) (split : w.executables = before ++ f :: after)
    (accepts : f.Accepts inputs) {result : Except Error (List Output)}
    (ran : f.call inputs borrow w.machine = (result, g, m)) : ∃ a : Activation, m = a.machine ∧
      match result with
      | .error e => (f.course inputs w.machine).StopsWith e ∧ m.cells = w.machine.cells
      | .ok os => (f.course inputs w.machine).Ends (others (before ++ after) w.outputs) f.id
          ((f.course inputs w.machine).start.callsOf f.id) borrow os a := by
  have reliable := good.course_reliable (by simp [split] : f ∈ w.executables) inputs trivial
  obtain ⟨a, -, rfl, met⟩ := good.call_cases split ran
  refine ⟨a, rfl, ?_⟩
  cases result with
  | error e =>
    rcases met with ⟨-, refused⟩ | ⟨-, aborts⟩
    · rcases refused with ⟨reason, poisoned, -⟩ | ⟨-, refused⟩
      · cases accepts.usable.symm.trans poisoned
      · cases accepts.inputs.symm.trans refused
    · exact ⟨aborts.stops reliable, aborts.lasts.cells⟩
  | ok os => exact met.2

/-- Where nothing can fail, a call succeeds if all of its results have values. -/
theorem Good.call_succeeds (good : Good True w) (split : w.executables = before ++ f :: after)
    (accepts : f.Accepts inputs)
    (valued : ∀ v ∈ f.schedule.program.roots, ((f.course inputs w.machine).value v).isSome) :
    ∃ os g m, f.call inputs false w.machine = (.ok os, g, m) ∧
      List.Forall₂ (fun v o => ∃ t, (f.course inputs w.machine).value v = some t ∧ o = .host t)
        f.schedule.program.outputs os ∧ m.cells = (f.course inputs w.machine).after := by
  obtain ⟨scope, l, -, fits⟩ := good.fits (by simp [split] : f ∈ w.executables) inputs
  rcases ran : f.call inputs false w.machine with ⟨result, g, m⟩
  obtain ⟨a, rfl, met⟩ := good.call_reliable split accepts ran
  cases result with
  | error e =>
    obtain ⟨v, root, without⟩ := met.1.root_without (fits accepts)
    have has := valued v root
    rw [without] at has
    cases has
  | ok os => exact ⟨os, g, _, rfl, met.host_outputs (fits accepts), met.lasts.cells⟩

/-- Where nothing can fail, a call fails if one of its results has no value. -/
theorem Good.call_fails (good : Good True w) (split : w.executables = before ++ f :: after)
    (accepts : f.Accepts inputs)
    (without : ∃ v ∈ f.schedule.program.roots, (f.course inputs w.machine).value v = none) :
    ∃ e g m, f.call inputs borrow w.machine = (.error e, g, m) ∧ (f.course inputs w.machine).StopsWith e ∧
      m.cells = w.machine.cells := by
  obtain ⟨scope, l, -, fits⟩ := good.fits (by simp [split] : f ∈ w.executables) inputs
  rcases ran : f.call inputs borrow w.machine with ⟨result, g, m⟩
  obtain ⟨a, rfl, met⟩ := good.call_reliable split accepts ran
  cases result with
  | error e => exact ⟨e, g, _, rfl, met.1, met.2⟩
  | ok os =>
    obtain ⟨v, root, without⟩ := without
    have has := met.root_value (fits accepts) v root
    rw [without] at has
    cases has

/-- Where nothing can fail, a call that is refused does not take its arguments, and changes nothing. -/
theorem Good.call_refused (good : Good True w) (split : w.executables = before ++ f :: after) {e : Error}
    (refused : Calling.accept f.schedule inputs = .error e) {result : Except Error (List Output)}
    (ran : f.call inputs borrow w.machine = (result, g, m)) : result = .error e ∧ g = f ∧ m = w.machine := by
  obtain ⟨a, rfl, rfl, met⟩ := good.call_cases split ran
  cases result with
  | error e' =>
    rcases met with ⟨rfl, ⟨reason, poisoned, -⟩ | ⟨-, refused'⟩⟩ | ⟨accepts, -⟩
    · cases (good.usable trivial f (by simp [split])).symm.trans poisoned
    · cases refused.symm.trans refused'
      exact ⟨rfl, rfl, rfl⟩
    · cases refused.symm.trans accepts.inputs
  | ok os => cases refused.symm.trans met.1.inputs

end

section Failures

section

variable [BlockRoutine]

/-- What a call with results on the host tells of failures: one of a launch is an error of the call, and a call that
succeeds gives what it should. -/
structure Reports (f : Executable) (inputs : List Tensor) (m m' : Machine) (result : Except Error (List Output)) :
    Prop where
  /-- If a launch of the call fails, the call reports an error. -/
  reported : (∃ id, m'.Blamed id (m.accelerator id).launches) → ∃ e, result = .error e
  /-- The results are the values that the compiled program computes. -/
  outputs : ∀ os, result = .ok os →
    List.Forall₂ (fun v o => ∃ t, (f.course inputs m).value v = some t ∧ o = .host t) f.schedule.program.outputs os
  /-- The persistent values are those that it computes for its updates, and the others as they were. -/
  cells : ∀ os, result = .ok os → m'.cells = (f.course inputs m).after
  /-- The same program gives and writes the same where nothing can fail. -/
  twin : ∀ os, result = .ok os → ∀ w before f' after, Reachable True w → w.executables = before ++ f' :: after →
    f.Twin f' → w.machine.cells = m.cells →
      ∃ g m'', f'.call inputs false w.machine = (.ok os, g, m'') ∧ m''.cells = m'.cells

/-- On devices that are through with each launch before the host goes on, a call reports an error if one of its
launches fails. A call that succeeds gives the values that the compiled program computes, and writes those of its
updates; the same program gives and writes the same where nothing can fail. -/
theorem failures_are_reported (reachable : Reachable False w) (split : w.executables = before ++ f :: after)
    {result : Except Error (List Output)} (ran : f.call inputs false w.machine = (result, g, m)) :
    Reports f inputs w.machine m result := by
  have good := reachable.good
  obtain ⟨scope, l, -, fits⟩ := good.fits (by simp [split] : f ∈ w.executables) inputs
  obtain ⟨a, -, rfl, met⟩ := good.call_cases split ran
  cases result with
  | error e => exact ⟨fun _ => ⟨e, rfl⟩, nofun, nofun, nofun⟩
  | ok os =>
    obtain ⟨accepts, ends⟩ := met
    have fits := fits accepts
    refine ⟨fun ⟨id, blamed⟩ => absurd blamed (ends.heard rfl id), ?_, ?_, ?_⟩
    · rintro _ ⟨⟩
      exact ends.host_outputs fits
    · rintro _ ⟨⟩
      exact ends.lasts.cells
    rintro _ ⟨⟩ w' before' f' after' reachable' split' twin cells
    have good' := reachable'.good
    have member' : f' ∈ w'.executables := by simp [split']
    obtain ⟨scope', l', -, fits'⟩ := good'.fits member' inputs
    have value : (f.course inputs w.machine).value = (f'.course inputs w'.machine).value := twin.value cells.symm
    have accepts' : f'.Accepts inputs := by
      obtain ⟨scope'', l'', laid', -⟩ := good'.laid f' member'
      refine ⟨good'.usable trivial f' member', (Calling.accept_iff laid').mpr ?_⟩
      rw [← twin.program]
      exact fits.takes
    have fits' := fits' accepts'
    have valued : ∀ v ∈ f'.schedule.program.roots, ((f'.course inputs w'.machine).value v).isSome := by
      rw [← value, ← twin.program]
      exact ends.root_value fits
    obtain ⟨os', g', m', ran', outputs', cells'⟩ := good'.call_succeeds split' accepts' valued
    rw [← value, ← twin.program] at outputs'
    have once : Relator.RightUnique fun v (o : Output) => ∃ t, (f.course inputs w.machine).value v = some t ∧
        o = .host t := by
      rintro v o o' ⟨t, known, rfl⟩ ⟨t', known', rfl⟩
      rw [Option.some.inj (known.symm.trans known')]
    obtain rfl := once.forall₂ (ends.host_outputs fits) outputs'
    refine ⟨g', m', ran', ?_⟩
    rw [cells', ends.lasts.cells]
    exact (Course.after_congr fits fits' (twin.program ▸ .refl _) (twin.roots cells.symm) cells.symm).symm

end

section

open scoped BlockRoutine

/-- An accelerator that fails at its first launch. -/
example : ∃ w f, Reachable False w ∧ w.executables = [f] ∧
    let (result, _, m) := f.call [.vector ⟨.i32, #[1, 2, 3]⟩] false w.machine
    Reports f [.vector ⟨.i32, #[1, 2, 3]⟩] w.machine m result := by
  obtain ⟨w, f, reachable, alone, -⟩ := reachable_negatedSum False
    { target := .sim 0, sim := { fault := some ⟨false, 1⟩ } } _ (.vector ⟨.i32, #[1, 2, 3]⟩) False.elim rfl
    (by decide +kernel)
  have split : w.executables = [] ++ f :: [] := alone
  exact ⟨w, f, reachable, alone, failures_are_reported reachable split rfl⟩

/-- Whether the second of two calls succeeds with these numbers, though none of its launches has failed. -/
def answers (run : Except Error (Machine × List Output) × Machine) (xs : Array (Elem .i32)) :
    Bool :=
  match run with
  | (.ok (before, [.host t]), m) =>
    t.data.same ⟨.i32, xs⟩ && !decide ((m.accelerator 0).Blamed (before.accelerator 0).launches)
  | _ => false

/-- A launch that the first call leaves behind adds to the argument of the second one, which succeeds with the wrong
sums. -/
theorem late_launch_goes_unreported :
    answers (Program.overlapped (some ⟨false, 1⟩) 18) #[33, 44] ∧
      answers (Program.overlapped none 1000) #[24, 35] := by decide +kernel

end

end Failures

section Repeats

/-- What was left on a device that works is read as the tensor that it carries. -/
theorem toHost_of_gives (sane : m.Sane) {o : Output} {c : Context} {f : ExecutableId} {call : Nat} {t : Tensor}
    (gives : o.Gives c m f call borrow t) (counted : m.callsOf f = call) (has : ∀ d, c.Owns d → m.Has d)
    (serves : ∀ d, c.Owns d → m.Serves d) : (o.toHost.start m).1 = .ok t ∧ o.isBorrowed = borrow := by
  cases o with
  | host u =>
    obtain ⟨rfl, rfl⟩ := gives
    exact ⟨rfl, rfl⟩
  | borrowed h =>
    obtain ⟨rfl, owns, carries, shape, rfl, same⟩ := gives
    have met : (Output.borrowed h).toHost.Meets m (fun _ _ => False) fun u _ => u = t := by
      unfold Output.toHost Handle.toHost
      rw [meets_bind, meets_get]
      simp only [counted.trans same.symm, ne_eq, not_true_eq_false, ↓reduceIte, shape]
      exact (Device.materialize_meets sane (has _ owns) carries).mono (fun _ _ refused => refused.2.2 (serves _ owns))
        fun _ _ read => read.1
    refine ⟨?_, rfl⟩
    rcases ran : (Output.borrowed h).toHost.start m with ⟨result, m'⟩
    cases result with
    | error e => exact (met.of_error ran).elim
    | ok u => rw [met.of_ok ran]

/-- The results of a call where nothing can fail are read as the values of their variables. -/
theorem Good.results_read [BlockRoutine] (good : Good True w) (split : w.executables = before ++ f :: after)
    {scope : Scope} {l : Layout} (fits : (f.course inputs w.machine).Fits scope l) {os : List Output} {a : Activation}
    (ends : (f.course inputs w.machine).Ends (others (before ++ after) w.outputs) f.id
      ((f.course inputs w.machine).start.callsOf f.id) borrow os a) :
    List.Forall₂ (fun v (o : Output) => o.isBorrowed = borrow ∧ ∃ t, (f.course inputs w.machine).value v = some t ∧
      (o.toHost.start a.machine).1 = .ok t) f.schedule.program.outputs os := by
  have context : w.Uses f.context := .inr ⟨f, by simp [split], rfl⟩
  have reliable : f.context.Reliable (f.course inputs w.machine).updated :=
    (good.reliable trivial _ context).unmoved (Machine.unmoved_of_same rfl rfl) (good.has _ context)
  have started := good.course_reliable (by simp [split] : f ∈ w.executables) inputs trivial
  have works := reliable.lasts (ends.quiet started) fun loud => loud
  refine forall₂_through fits.laid.outputs ends.outputs ?_
  rintro v x o ⟨rfl, -⟩ ⟨t, value, gives⟩
  have counted : a.machine.callsOf f.id = (f.course inputs w.machine).start.callsOf f.id := by
    rw [Machine.callsOf, ends.lasts.calls]
    rfl
  obtain ⟨read, same⟩ := toHost_of_gives ends.settled.tidy.sane gives counted ends.settled.tidy.has works.serves
  exact ⟨same, t, value, read⟩

/-- Two calls give the same tensors, the ones read on the first machine and the others on the second one, or errors that
are alike. -/
def AlikeOutcome (alike : Error → Error → Prop) (m m' : Machine) :
    Except Error (List Output) → Except Error (List Output) → Prop
  | .ok os, .ok os' => List.Forall₂ (fun o o' => o.isBorrowed = o'.isBorrowed ∧
      ∃ t, (o.toHost.start m).1 = .ok t ∧ (o'.toHost.start m').1 = .ok t) os os'
  | .error e, .error e' => alike e e'
  | _, _ => False

/-- Two calls give the same tensors, or errors of the same kind. -/
def SameOutcome (m m' : Machine) : Except Error (List Output) → Except Error (List Output) → Prop :=
  AlikeOutcome (fun e e' => e.ctorIdx = e'.ctorIdx) m m'

theorem AlikeOutcome.mono {alike alike' : Error → Error → Prop} {m m' : Machine}
    {result result' : Except Error (List Output)} (outcome : AlikeOutcome alike m m' result result')
    (weaker : ∀ e e', alike e e' → alike' e e') : AlikeOutcome alike' m m' result result' := by
  cases result <;> cases result' <;> first
    | exact outcome
    | exact weaker _ _ outcome

/-- Where nothing can fail, calls with the same results have the same outcome, and leave the same persistent values. If
both fail, they were refused or stopped, each where its own operands disagree. -/
theorem Good.same_outcome [BlockRoutine] (good : Good True w) (split : w.executables = before ++ f :: after)
    {w' : World} {m' : Machine} {before' after' : List Executable} {f' g' : Executable} (good' : Good True w')
    (split' : w'.executables = before' ++ f' :: after') (cells : w.machine.cells = w'.machine.cells)
    (interface : f.schedule.program.SameInterface f'.schedule.program)
    (roots : f.schedule.program.Takes inputs → f.schedule.program.roots.map (f.course inputs w.machine).value =
      f'.schedule.program.roots.map (f'.course inputs w'.machine).value)
    {result result' : Except Error (List Output)} (ran : f.call inputs borrow w.machine = (result, g, m))
    (ran' : f'.call inputs borrow w'.machine = (result', g', m')) :
    AlikeOutcome (fun e e' => e.ctorIdx = e'.ctorIdx ∨
        (f.course inputs w.machine).StopsWith e ∧ (f'.course inputs w'.machine).StopsWith e') m m' result result' ∧
      m.cells = m'.cells := by
  have member : f ∈ w.executables := by simp [split]
  have member' : f' ∈ w'.executables := by simp [split']
  obtain ⟨_, _, laid, -⟩ := good.laid f member
  obtain ⟨_, _, laid', -⟩ := good'.laid f' member'
  have takes : f.schedule.program.Takes inputs ↔ f'.schedule.program.Takes inputs :=
    ⟨interface.takes, interface.symm.takes⟩
  rw [← Calling.accept_iff laid, ← Calling.accept_iff laid'] at takes
  cases accepted : Calling.accept f.schedule inputs with
  | error e =>
    cases accepted' : Calling.accept f'.schedule inputs with
    | ok _ =>
      cases accepted.symm.trans (takes.mpr accepted')
    | error e' =>
      obtain ⟨rfl, -, rfl⟩ := good.call_refused split accepted ran
      obtain ⟨rfl, -, rfl⟩ := good'.call_refused split' accepted' ran'
      obtain ⟨text, rfl⟩ := Calling.invalid_of_accept accepted
      obtain ⟨text', rfl⟩ := Calling.invalid_of_accept accepted'
      exact ⟨.inl rfl, cells⟩
  | ok _ =>
    have roots := roots ((Calling.accept_iff laid).mp accepted)
    have accepts : f.Accepts inputs := ⟨good.usable trivial f member, accepted⟩
    have accepts' : f'.Accepts inputs := ⟨good'.usable trivial f' member', takes.mp accepted⟩
    obtain ⟨scope, l, -, fits⟩ := good.fits member inputs
    obtain ⟨scope', l', -, fits'⟩ := good'.fits member' inputs
    have fits := fits accepts
    have fits' := fits' accepts'
    obtain ⟨a, rfl, met⟩ := good.call_reliable split accepts ran
    obtain ⟨a', rfl, met'⟩ := good'.call_reliable split' accepts' ran'
    cases result with
    | error e =>
      obtain ⟨stops, same⟩ := met
      cases result' with
      | error e' =>
        obtain ⟨stops', same'⟩ := met'
        exact ⟨.inr ⟨stops, stops'⟩, same.trans (cells.trans same'.symm)⟩
      | ok os' =>
        obtain ⟨v, root, without⟩ := (Program.valueless_iff roots).mp (stops.root_without fits)
        have has := met'.root_value fits' v root
        rw [without] at has
        cases has
    | ok os =>
      cases result' with
      | error e' =>
        obtain ⟨v, root, without⟩ := (Program.valueless_iff roots).mpr (met'.1.root_without fits')
        have has := met.root_value fits v root
        rw [without] at has
        cases has
      | ok os' =>
        have read := good.results_read split fits met
        have read' := good'.results_read split' fits' met'
        have outputs := Program.outputs_of_roots roots interface.outputs
        rw [← List.forall₂_eq_eq_eq, List.forall₂_map_left_iff, List.forall₂_map_right_iff] at outputs
        have moved : List.Forall₂ (fun v (o : Output) => o.isBorrowed = borrow ∧ ∃ t,
            (f'.course inputs w'.machine).value v = some t ∧ (o.toHost.start a.machine).1 = .ok t)
            f'.schedule.program.outputs os := by
          refine forall₂_through outputs.flip read ?_
          rintro v' v o equal ⟨same, t, known, reads⟩
          exact ⟨same, t, equal ▸ known, reads⟩
        refine ⟨forall₂_through moved.flip read' ?_, ?_⟩
        · rintro o v o' ⟨same, t, known, reads⟩ ⟨same', t', known', reads'⟩
          obtain rfl : t = t' := Option.some.inj (known.symm.trans known')
          exact ⟨same.trans same'.symm, t, reads, reads'⟩
        · rw [met.lasts.cells, met'.lasts.cells]
          exact Course.after_congr fits fits' interface roots cells

/-- Where nothing can fail, calls of one schedule with the same options, on the same persistent values, give the same
tensors or fail for the same reason. -/
theorem Good.repeats [BlockRoutine] (good : Good True w) (split : w.executables = before ++ f :: after)
    {w' : World} {m' : Machine} {before' after' : List Executable} {f' g' : Executable} (good' : Good True w')
    (split' : w'.executables = before' ++ f' :: after') (cells : w.machine.cells = w'.machine.cells)
    (twin : f.Twin f') (commands : f'.schedule.commands = f.schedule.commands)
    {result result' : Except Error (List Output)} (ran : f.call inputs borrow w.machine = (result, g, m))
    (ran' : f'.call inputs borrow w'.machine = (result', g', m')) :
    SameOutcome m m' result result' ∧ m.cells = m'.cells := by
  refine (good.same_outcome split good' split' cells (twin.program ▸ .refl _) (fun _ => twin.roots cells) ran ran').imp_left
    fun outcome => outcome.mono fun e e' => ?_
  rintro (same | ⟨⟨before, cmd, after, stops⟩, ⟨before', cmd', after', stops'⟩⟩)
  · exact same
  · rw [(stops.unique stops' commands (twin.value cells)).2]

section

open scoped BlockRoutine

end

end Repeats

end World

end TensorGraph
