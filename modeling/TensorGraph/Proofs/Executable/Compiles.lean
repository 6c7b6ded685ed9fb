import TensorGraph.Proofs.Executable.Compiled
import TensorGraph.Proofs.Pass.Sent

/-! Every accepted program compiles, unless folding its constants runs out of sizes. The rule that placement leads to,
an operation on the host or on the target, is all that a schedule asks for, and no pass after placement can break it or
fail under it otherwise. -/
namespace TensorGraph

open Checked

namespace Schedule

/-- Commands stand where a rule has their operations. -/
def Obeys (s : Schedule) (rule : Op → Place → Prop) : Prop := ∀ cmd ∈ s.commands, rule cmd.op (some cmd.location)

/-- A program whose operations have places that the context knows is scheduled as it obeys a rule. -/
theorem build_obeys [BlockRoutine] {c : Context} {q : Program} {rule : Op → Place → Prop} {typed : Prop}
    (settled : ∀ {op : Op} {place : Place}, rule op place → c.settled op place) (valid : q.Valid (.ruled rule typed))
    (report : List PassReport) :
    match Schedule.build c q report with
    | .ok s => s.Obeys rule
    | .error _ => c.kernels ≠ .host := by
  have obeys : ∀ n ∈ q.liveNodes, rule n.op n.place ∧ ∀ i, n.inPlace = some i → i < n.inputs.length := by
    intro n live
    obtain ⟨tys, ty, x, known⟩ := valid.operation live
    exact ⟨known.rule.1, fun i marked => known.types.length_eq ▸ known.rule.2 i marked⟩
  obtain ⟨l, laid, slotted, slots⟩ := Layout.build_slotted valid fun n live => (obeys n live).2
  have renders := build_renders valid laid (fun n live => settled (obeys n live).1) slotted slots report
  cases built : Schedule.build c q report with
  | error e =>
    rw [built] at renders
    exact renders
  | ok s =>
    rw [built] at renders
    obtain ⟨rfl, renders⟩ := renders
    intro cmd member
    obtain ⟨n, live, does⟩ := partner_of renders.commands member
    rw [does.op, ← does.place]
    exact (obeys n live).1

end Schedule

namespace Program

variable {c : Context} {p : Program} {rule : Op → Place → Prop} {typed fails : Prop}

/-- A compilation ends with a schedule that obeys the rule that placement leads to, unless placement refuses or the
extents of what is computed from constants alone overflow. -/
theorem schedule_obeys [BlockRoutine] {refused : Error → Prop} (keeps : c.Keeps rule fails) (results : typed → c.kernels.Typed)
    (failing : ¬ (typed ∧ c.kernels.WellTyped) → fails)
    (settled : ∀ {op : Op} {place : Place}, rule op place → c.settled op place)
    (places : ∀ q : Program, q.Valid (.ruled anywhere typed) → match Placement.run c q with
      | .ok q' => q.Follows q' rule typed
      | .error e => refused e)
    (valid : p.Valid (.ruled anywhere typed)) (accepted : p.validate = .ok ()) {passes : List PassName}
    (standard : c.config.passes = .ok passes) :
    match p.schedule c with
    | .ok s => s.Obeys rule
    | .error e => (refused e ∨ fails ∨ c.kernels ≠ .host) ∨ e = .crash ∧ p.Overflows := by
  have met := passes_follow keeps results failing places valid standard
  unfold schedule
  rw [accepted, ok_bind, standard, ok_bind]
  cases ran : p.runPasses c passes with
  | error e =>
    rw [ran] at met
    exact met.imp_left (Or.imp_right .inl)
  | ok result =>
    obtain ⟨q, report⟩ := result
    rw [ran] at met
    have built := Schedule.build_obeys settled met.valid report
    simp only [ok_bind]
    cases scheduled : Schedule.build c q report with
    | error e =>
      rw [scheduled] at built
      exact .inl (.inr (.inr built))
    | ok s =>
      rw [scheduled] at built
      exact built

end Program

/-- The host runs everything. -/
theorem Table.host_runs (g : Graph) (n : Node) : Table.host.Runs g n := fun _ _ _ _ => ⟨_, rfl, rfl⟩

section Standard

variable {c : Context} {config : Config} {p : Program}

section

variable [BlockRoutine]

/-- Without an accelerator, such a context is the host as it comes. -/
theorem Context.Assembled.plain (assembled : c.Assembled config [] .host) (host : config.target = .host) : c.Plain := by
  refine ⟨?_, assembled.hostTable, assembled.sameKernels⟩
  rcases assembled.opened with ⟨-, none⟩ | ⟨id, n, t, aimed, -⟩
  · exact (Prod.mk.inj none).1
  · cases host.symm.trans aimed

/-- With a fallback, every operation can go to the host if it can go nowhere else. -/
theorem Context.Assembled.serves (assembled : c.Assembled config [] .host) (lenient : config.fallback ≠ .strict)
    (g : Graph) (n : Node) : c.Serves g n := by
  by_cases runs : c.targetTable.Runs g n
  · exact ⟨_, .target runs⟩
  · have table : c.hostTable = .host := assembled.hostTable
    exact ⟨_, .host runs (assembled.sameConfig ▸ lenient) (table ▸ Table.host_runs g n)⟩

/-- With the tables that devices come with, placement refuses a program only for want of a fallback. -/
theorem Context.Assembled.places (assembled : c.Assembled config [] .host) (valid : p.Valid (.ruled anywhere True)) :
    match Placement.run c p with
    | .ok q => p.Follows q c.settled True
    | .error e => config.target ≠ .host ∧ config.fallback = .strict ∧
        ∃ node op device reason, e = .placement node op device reason := by
  have reaches : ∀ {fails : Prop}, (∀ n ∈ p.liveNodes, ¬ n.op.isTransfer →
      ∀ e, Placement.choose c (Placement.hostLeaves p).graph n = .error e → fails) → match Placement.run c p with
        | .ok q => p.Follows q c.settled True
        | .error _ => fails :=
    fun failing => Placement.run_reaches (fun leads => ⟨_, rfl, leads⟩) (fun _ there => ⟨_, rfl, there⟩) valid failing
  cases ran : Placement.run c p with
  | ok q =>
    have follows := reaches fun _ _ _ _ _ => trivial
    rw [ran] at follows
    exact follows
  | error e =>
    by_cases host : config.target = .host
    · have never : match Placement.run c p with
          | .ok q => p.Follows q c.settled True
          | .error _ => False := reaches fun n live _ e chosen => by
        obtain ⟨tys, ty, x, known⟩ :=
          (Placement.hostLeaves_valid (Placement.hosts_ruled anywhere True) valid).operation (n := n) live
        have spec := Placement.choose_meets c known
        rw [chosen] at spec
        exact spec (assembled.plain host)
      rw [ran] at never
      exact never.elim
    · have accelerated : c.target ≠ .host := mt assembled.target_host.mp host
      rcases Placement.run_outcome assembled.table_target accelerated valid with
        ⟨⟨q, -, ran', -⟩, -⟩ | ⟨n, -, -, refused, reason, ran'⟩
      · cases ran.symm.trans ran'
      · obtain rfl := Except.error.inj (ran.symm.trans ran')
        refine ⟨host, ?_, _, _, _, _, rfl⟩
        by_contra lenient
        exact refused (assembled.serves lenient p.graph n)

theorem Context.Assembled.keeps_settled (assembled : c.Assembled config [] .host) : c.Keeps c.settled False where
  table held := by
    obtain ⟨l, ⟨⟩, reaches⟩ := held
    exact .inl (assembled.table_of_known reaches)
  layout _ _ held := held
  fused _ _ held := held

/-- Every accepted program compiles with the tables and the kernels that devices come with, whatever passes are left
out: for the host, and for an accelerator with a fallback. Without a fallback nothing but placement refuses it. Only
folding can fail besides, and it does so by a crash, where an operation on constants has extents out of range. -/
theorem Program.accepted_compiles (arises : p.graph.Arises) (accepted : p.validate = .ok ()) {m₀ m₁ : Machine}
    (built : (Context.build config [] .host).start m₀ = (.ok c, m₁))
    (known : ∀ name ∈ config.excluded, ∃ pass, pass ≠ PassName.placement ∧ pass.name = name) (m : Machine) :
    (config.target = .host ∨ config.fallback ≠ .strict →
      (∃ f m', (p.compile c).start m = (.ok f, m')) ∨
        p.Overflows ∧ ∃ m', (p.compile c).start m = (.error .crash, m')) ∧
      ∀ e m', (p.compile c).start m = (.error e, m') →
        (∃ node op device reason, e = .placement node op device reason) ∨ e = .crash ∧ p.Overflows := by
  have assembled := Context.assembled_of_build built
  have standard : ∃ passes, c.config.passes = .ok passes := by
    unfold Config.passes PassName.standard
    rw [assembled.sameConfig, PassName.checkExcluded_of known]
    exact ⟨_, rfl⟩
  obtain ⟨passes, standard⟩ := standard
  have wellTyped : c.kernels.WellTyped := assembled.sameKernels ▸ Kernels.wellTyped_host
  have met := schedule_obeys assembled.keeps_settled (fun _ => wellTyped.typed)
    (fun wrong => wrong ⟨trivial, wellTyped⟩) id (fun q valid => assembled.places valid)
    (valid_of_arises arises accepted) accepted standard
  rw [compile_start]
  cases scheduled : p.schedule c with
  | ok s => exact ⟨fun _ => .inl ⟨_, _, rfl⟩, fun e m' failed => by cases failed⟩
  | error e =>
    rw [scheduled] at met
    rcases met with (⟨accelerated, strict, shape⟩ | never | other) | ⟨rfl, overflows⟩
    · refine ⟨fun served => ?_, fun e' m' failed => ?_⟩
      · rcases served with host | lenient
        · exact absurd host accelerated
        · exact absurd strict lenient
      · cases failed
        exact .inl shape
    · exact never.elim
    · exact absurd assembled.sameKernels other
    · refine ⟨fun _ => .inr ⟨overflows, _, rfl⟩, fun e' m' failed => ?_⟩
      cases failed
      exact .inr ⟨rfl, overflows⟩

end

section

open scoped BlockRoutine

/-- The accelerator cannot run the operation, and so the program compiles with a fallback only. -/
theorem Program.accepted_compiles_wideNegation :
    (∃ c m f m', (Context.build
      { target := .sim 0, fallback := .warn, excluded := ["canonicalize", "fusion"] } [] .host).start {} = (.ok c, m) ∧
        (wideNegation.compile c).start m = (.ok f, m')) ∧ ¬ (wideNegation.schedule (.first (.sim 0))).isOk := by
  have accepted : wideNegation.validate = .ok () := by decide +kernel
  have known : ∀ name ∈ ["canonicalize", "fusion"], ∃ pass, pass ≠ PassName.placement ∧ pass.name = name := by
    simp only [List.forall_mem_cons, List.not_mem_nil, false_implies, implies_true, and_true]
    exact ⟨⟨.canonicalize, by decide, rfl⟩, ⟨.fusion, by decide, rfl⟩⟩
  obtain ⟨c, m, built⟩ : ∃ c m, (Context.build
      { target := .sim 0, fallback := .warn, excluded := ["canonicalize", "fusion"] } [] .host).start {} = (.ok c, m) :=
    ⟨_, _, rfl⟩
  have safe : ¬ wideNegation.Overflows :=
    not_overflows (valid_of_arises Graph.built_wideNegation.arises accepted) (by decide +kernel)
  obtain ⟨f, m', ran⟩ :=
    ((accepted_compiles Graph.built_wideNegation.arises accepted built known m).1 (.inr (by decide))).resolve_right
      fun failed => safe failed.1
  exact ⟨⟨c, m, f, m', built, ran⟩, by decide +kernel⟩

/-- No context compiles the product of the constants unless it leaves them as they are. -/
theorem Program.compile_crashes_hugeProduct : hugeProduct.graph.Arises ∧ hugeProduct.validate = .ok () ∧
    ∃ c m, (Context.build {} [] .host).start {} = (.ok c, m) ∧ hugeProduct.schedule c = .error .crash :=
  ⟨built_hugeProduct.arises, by decide +kernel, .first, _, rfl, eq_error_of_failure (by decide +kernel)⟩

end

end Standard

end TensorGraph
