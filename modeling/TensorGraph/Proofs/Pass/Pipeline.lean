import TensorGraph.Pass.Pipeline
import TensorGraph.Proofs.Pass.Canonical
import TensorGraph.Proofs.Pass.Fusion
import TensorGraph.Proofs.Pass.InPlace
import TensorGraph.Proofs.Pass.Transfers

/-! The passes one after the other, any of them left out but placement: the program that they end in
computes the same, and overwrites only what nobody needs any more. -/
namespace TensorGraph

open Checked

namespace Program

section Runs

variable {c : Context} {p q : Program} {passes done rest : List PassName} {report : List PassReport}

theorem runPasses_cons {pass : PassName} (ran : p.runPasses c (pass :: passes) = .ok (q, report)) :
    ∃ next report', pass.run c p = .ok next ∧ next.runPasses c passes = .ok (q, report') := by
  obtain ⟨next, first, others⟩ := bind_eq_ok.mp ran
  obtain ⟨⟨final, report'⟩, finished, whole⟩ := bind_eq_ok.mp others
  cases whole
  exact ⟨next, report', first, finished⟩

/-- A run of passes is a run of the first ones and a run of the others. -/
theorem runPasses_append (ran : p.runPasses c (done ++ rest) = .ok (q, report)) :
    ∃ next first last, p.runPasses c done = .ok (next, first) ∧ next.runPasses c rest = .ok (q, last) := by
  induction done generalizing p report with
  | nil => exact ⟨p, [], report, rfl, ran⟩
  | cons pass done ih =>
    obtain ⟨next, report', here, others⟩ := runPasses_cons ran
    obtain ⟨middle, first, last, before, after⟩ := ih others
    have whole : ∃ first, p.runPasses c (pass :: done) = .ok (middle, first) :=
      ⟨_, by simp only [runPasses, here, ok_bind, before]; rfl⟩
    obtain ⟨first, ran⟩ := whole
    exact ⟨middle, first, last, ran, after⟩

end Runs

/-- The passes end in a program with `post`, or one of them fails as `fails` allows. -/
def PassesMeet (p : Program) (c : Context) (passes : List PassName) (fails : Error → Prop)
    (post : Program → Prop) : Prop :=
  match p.runPasses c passes with
  | .ok (q, _) => post q
  | .error e => fails e

variable {p : Program} {c : Context} {fails : Error → Prop} {post : Program → Prop}

theorem passesMeet_nil : p.PassesMeet c [] fails post ↔ post p := Iff.rfl

theorem passesMeet_cons {pass : PassName} {passes : List PassName} :
    p.PassesMeet c (pass :: passes) fails post ↔
      match pass.run c p with
      | .ok q => q.PassesMeet c passes fails post
      | .error e => fails e := by
  unfold PassesMeet
  rw [runPasses]
  cases pass.run c p with
  | error e => exact Iff.rfl
  | ok q =>
    simp only [ok_bind]
    cases q.runPasses c passes with
    | error e => exact Iff.rfl
    | ok result => exact Iff.rfl

theorem PassesMeet.mono {passes : List PassName} {post' : Program → Prop} (met : p.PassesMeet c passes fails post)
    (weaker : ∀ q, post q → post' q) : p.PassesMeet c passes fails post' := by
  unfold PassesMeet at met ⊢
  split <;> simp_all

/-- A pass that may be left out: either way the program is at the next stage. -/
theorem PassesMeet.optional (stage : Program → Prop) {keep : PassName → Bool} {pass : PassName}
    {passes : List PassName}
    (runs : keep pass → match pass.run c p with
      | .ok q => stage q
      | .error e => fails e)
    (skips : ¬ keep pass → stage p)
    (next : ∀ q, stage q → q.PassesMeet c (passes.filter keep) fails post) :
    p.PassesMeet c ((pass :: passes).filter keep) fails post := by
  by_cases kept : keep pass
  · rw [List.filter_cons_of_pos kept, passesMeet_cons]
    have ran := runs kept
    revert ran
    cases pass.run c p with
    | error e => exact id
    | ok q => exact next q
  · rw [List.filter_cons_of_neg kept]
    exact next p (skips kept)

end Program

namespace PassName

theorem checkExcluded_ok {names : List String} (checked : checkExcluded names = .ok ()) :
    "placement" ∉ names := by
  induction names with
  | nil => simp
  | cons name names ih =>
    unfold checkExcluded at checked
    by_cases placement : name = "placement"
    · simp [placement] at checked
    by_cases unknown : (ofName? name).isNone
    · simp [placement, unknown] at checked
    rw [if_neg placement, if_neg unknown] at checked
    simpa [eq_comm, placement] using ih checked

/-- Passes other than placement can be left out. -/
theorem checkExcluded_of {names : List String} (known : ∀ name ∈ names, ∃ pass, pass ≠ placement ∧ pass.name = name) :
    checkExcluded names = .ok () := by
  induction names with
  | nil => rfl
  | cons name names ih =>
    obtain ⟨pass, other, rfl⟩ := known name (by simp)
    have here : pass.name ≠ "placement" ∧ ¬ (ofName? pass.name).isNone := by
      cases pass <;> first | decide | exact absurd rfl other
    unfold checkExcluded
    rw [if_neg here.1, if_neg here.2]
    exact ih fun name' member => known name' (List.mem_cons_of_mem _ member)

theorem standard_ok {excluded : List String} {passes : List PassName}
    (standard : PassName.standard excluded = .ok passes) :
    passes = all.filter (fun p => !excluded.contains p.name) ∧ "placement" ∉ excluded := by
  obtain ⟨⟨⟩, checked, same⟩ := bind_eq_ok.mp standard
  exact ⟨(Except.ok.inj same).symm, checkExcluded_ok checked⟩

/-- A compilation starts with the canonical form, or with placement if that is left out. -/
theorem standard_head {excluded : List String} {passes : List PassName}
    (standard : PassName.standard excluded = .ok passes) :
    ∃ pass rest, passes = pass :: rest ∧ (pass = canonicalize ∨ pass = placement) := by
  obtain ⟨rfl, placed⟩ := standard_ok standard
  have keeps : (fun p : PassName => !excluded.contains p.name) placement := by simpa [name] using placed
  revert keeps
  generalize (fun p : PassName => !excluded.contains p.name) = keep
  intro keeps
  unfold all
  by_cases canonical : keep canonicalize
  · exact ⟨_, _, List.filter_cons_of_pos canonical, .inl rfl⟩
  · rw [List.filter_cons_of_neg canonical]
    exact ⟨_, _, List.filter_cons_of_pos keeps, .inr rfl⟩

end PassName

namespace Program

variable {p : Program} {c : Context} {scope : Scope} {math : MathMode} {ts : List Tensor}
  {cells : Array Tensor}

variable [BlockRoutine]

theorem Refines.mono {q : Program} {d d' : Discipline} {kept : Prop}
    (refines : p.Refines q d math ts cells kept) (implies : d.Implies d') :
    p.Refines q d' math ts cells kept := { refines with valid := refines.valid.mono implies }

theorem Refines.imp {q : Program} {d : Discipline} {kept kept' : Prop} (refines : p.Refines q d math ts cells kept)
    (stronger : kept' → kept) : p.Refines q d math ts cells kept' :=
  { refines with
    values := fun held => refines.values (stronger held)
    calm := fun held => refines.calm (stronger held) }

/-- The arguments and the persistent values have the types that the program expects, and no operation
is a fused expression. -/
structure Supplied (p : Program) (scope : Scope) (ts : List Tensor) (cells : Array Tensor) :
    Prop where
  typed : scope.typed
  unfused : scope.Unfused
  takes : p.Takes ts
  cells : ∀ c, scope.cell c → c.Typed cells

/-- Placement and what follows it keep values, whatever the kernel options are. -/
theorem lowered_meets (keep : PassName → Bool) (places : keep .placement)
    (valid : p.Valid (.fresh scope)) (math : MathMode) (ts : List Tensor)
    (cells : Array Tensor) :
    p.PassesMeet c ([.placement, .transfer, .fusion, .inplace, .dce].filter keep) (fun _ => ¬ c.Plain)
      fun q => p.Refines q (.marked c.target scope.fusing) math ts cells (p.Supplied scope ts cells) ∧
        q.OverwritesSafely := by
  refine PassesMeet.optional
    (fun q => p.Refines q (.placed c.target scope) math ts cells (p.Supplied scope ts cells))
    (fun _ => ?_) (fun skipped => absurd places skipped) fun p₁ placed => ?_
  · have met := Placement.run_meets c valid math ts cells
    unfold PassName.run
    cases ran : Placement.run c p with
    | error e =>
      rw [ran] at met
      exact met
    | ok q =>
      rw [ran] at met
      exact met.imp fun _ => trivial
  refine PassesMeet.optional
    (fun q => p.Refines q (.placed c.target scope) math ts cells (p.Supplied scope ts cells))
    (fun _ => ?_) (fun _ => placed) fun p₂ swept => ?_
  · have met := Transfers.run_meets c placed.valid math ts cells
    unfold PassName.run
    cases ran : Transfers.run c p₁ with
    | error e =>
      rw [ran] at met
      exact met
    | ok q =>
      rw [ran] at met
      exact placed.trans (met.imp fun _ => trivial)
  refine PassesMeet.optional
    (fun q => p.Refines q (.placed c.target scope.fusing) math ts cells
      (p.Supplied scope ts cells))
    (fun _ => ?_) (fun _ => swept.mono (Scope.placed_fusing _ _)) fun p₃ fused => ?_
  · have met := Fusion.run_meets c swept.valid math ts cells
    unfold PassName.run
    cases ran : Fusion.run c p₂ with
    | error e =>
      rw [ran] at met
      exact met
    | ok q =>
      rw [ran] at met
      refine swept.trans (met.imp fun supplied => ?_)
      exact ⟨supplied.typed, supplied.unfused,
        swept.valid.binds (swept.interface.takes supplied.takes) supplied.cells⟩
  refine PassesMeet.optional
    (fun q => p.Refines q (.marked c.target scope.fusing) math ts cells
      (p.Supplied scope ts cells) ∧ q.OverwritesSafely)
    (fun _ => ?_) (fun _ => ?_) fun p₄ marked => ?_
  · have met := InPlace.run_meets c fused.valid math ts cells
    unfold PassName.run
    cases ran : InPlace.run c p₃ with
    | error e =>
      rw [ran] at met
      exact met
    | ok q =>
      rw [ran] at met
      exact ⟨fused.trans (met.1.imp fun _ => trivial), met.2⟩
  · exact ⟨fused.mono (Discipline.marked_of_placed _ _), overwritesSafely_of_placed fused.valid⟩
  refine PassesMeet.optional
    (fun q => p.Refines q (.marked c.target scope.fusing) math ts cells
      (p.Supplied scope ts cells) ∧ q.OverwritesSafely)
    (fun _ => ?_) (fun _ => marked) fun p₅ done => passesMeet_nil.mpr done
  have congruent : (Discipline.marked c.target scope.fusing).Congruent :=
    Discipline.congruent_marked _ _
  have met := prune_meets marked.1.valid congruent math ts cells True
  unfold PassName.run
  cases ran : p₄.prune with
  | error e =>
    rw [ran] at met
    exact met.elim
  | ok q =>
    rw [ran] at met
    exact ⟨marked.1.trans (met.1.refines.imp fun _ => trivial),
      prune_overwritesSafely marked.1.valid congruent marked.2 ran⟩

/-- The canonical form of a program, unless that pass is left out. -/
def canonical (c : Context) (p : Program) : Except Error Program :=
  if c.config.excluded.contains PassName.canonicalize.name then .ok p else Canonical.run c p

theorem canonical_meets {kept : Prop} (valid : p.Valid (.fresh scope))
    (regular : kept → ¬ c.config.excluded.contains PassName.canonicalize.name →
      Canonical.Regular c.kernels p scope math ts cells) :
    match p.canonical c with
    | .ok q => p.Refines q (.fresh (scope.under c.kernels.Honest)) math ts cells kept
    | .error e => ¬ c.Plain ∨ e = .crash ∧ p.Overflows := by
  unfold canonical
  by_cases left : c.config.excluded.contains PassName.canonicalize.name
  · rw [if_pos left]
    exact .refl (valid.mono (Scope.fresh_under scope _)) math ts cells kept
  · rw [if_neg left]
    have met := Canonical.run_meets valid fun held : kept => regular held left
    cases ran : Canonical.run c p with
    | error e =>
      rw [ran] at met
      exact met.imp (fun other plain => other plain.kernels) id
    | ok q =>
      rw [ran] at met
      exact met.refines

/-- The passes of a compilation: first the canonical form, which may depend on the kernel options and where sizes may
overflow, then placement and the rest, which do not. -/
theorem passes_meet (valid : p.Valid (.fresh scope)) {passes : List PassName}
    (standard : c.config.passes = .ok passes) (math : MathMode) (ts : List Tensor) (cells : Array Tensor) :
    p.PassesMeet c passes (fun e => ¬ c.Plain ∨ e = .crash ∧ p.Overflows) fun q => ∃ p', p.canonical c = .ok p' ∧
      p'.Valid (.fresh (scope.under c.kernels.Honest)) ∧ p.SameInterface p' ∧ q.OverwritesSafely ∧
      p'.Refines q (.marked c.target (scope.under c.kernels.Honest).fusing) math ts cells
        (p'.Supplied (scope.under c.kernels.Honest) ts cells) := by
  obtain ⟨rfl, placed⟩ := PassName.standard_ok standard
  refine PassesMeet.optional (fun q => p.canonical c = .ok q ∧
    q.Valid (.fresh (scope.under c.kernels.Honest)) ∧ p.SameInterface q) (fun runs => ?_) (fun skips => ?_)
    fun p' ⟨canonical, valid', same⟩ => ?_
  · have kept : ¬ c.config.excluded.contains PassName.canonicalize.name := by simpa using runs
    have met := @Canonical.run_meets _ c p scope math ts cells False valid False.elim
    unfold PassName.run Program.canonical
    rw [if_neg kept]
    cases ran : Canonical.run c p with
    | error e =>
      rw [ran] at met
      exact met.imp (fun other plain => other plain.kernels) id
    | ok q =>
      rw [ran] at met
      exact ⟨rfl, met.valid, met.interface⟩
  · have left : c.config.excluded.contains PassName.canonicalize.name := by simpa using skips
    exact ⟨if_pos left, valid.mono (Scope.fresh_under scope _), .refl p⟩
  · have lowered := lowered_meets (c := c) (fun pass => !c.config.excluded.contains pass.name)
      (by simpa [PassName.name] using placed) valid' math ts cells
    unfold PassesMeet at lowered ⊢
    split
    · rename_i q report ran
      rw [ran] at lowered
      exact ⟨p', canonical, valid', same, lowered.2, lowered.1⟩
    · rename_i e ran
      rw [ran] at lowered
      exact .inl lowered

end Program

end TensorGraph
