import TensorGraph.Proofs.Pass.Ruled
import TensorGraph.Proofs.Program.Accepted
import TensorGraph.Proofs.World.Contexts

/-! Any passes in any order keep the interface of a program. Only placement can refuse it, and only the canonical form
can break off, where sizes of constants overflow. The rule that carries
this is weak enough to hold before placement too: what has a place is on the host or on the target. -/
namespace TensorGraph

open Checked

namespace Context

/-- What has a place is where placement may put it. -/
def within (c : Context) : Op → Place → Prop := fun _ place => ∀ l, place = some l → c.Reaches l

theorem Built.keeps_within {c : Context} (built : c.Built) : c.Keeps c.within False where
  table held := .inl (built.table_of_known (held _ rfl))
  layout _ _ held := held
  fused _ _ held := held

end Context

/-- A fresh program obeys the rule, as nothing in it has a place. -/
theorem Discipline.within_of_fresh (c : Context) {scope : Scope} (typed : scope.typed) :
    (Discipline.fresh scope).Implies (.ruled c.within True) where
  op op tys place mark := by
    rintro ⟨rfl, rfl, -⟩
    exact ⟨fun l none => (by cases none), fun i none => (by cases none)⟩
  leaf _ _ := trivial
  cell _ _ := trivial
  typed _ := typed

namespace Program

variable {c : Context} {p : Program}

theorem runPasses_cons_ok {pass : PassName} {passes : List PassName} {next q : Program} {report : List PassReport}
    (first : pass.run c p = .ok next) (rest : next.runPasses c passes = .ok (q, report)) :
    ∃ report', p.runPasses c (pass :: passes) = .ok (q, report') := by
  rw [runPasses, first, ok_bind, rest]
  exact ⟨_, rfl⟩

/-- Why a pass fails: placement refuses the program, or sizes overflow where constants are folded. -/
def Fails (c : Context) (pass : PassName) (q : Program) (e : Error) : Prop :=
  pass = .placement ∧ Placement.run c q = .error e ∨ pass = .canonicalize ∧ e = .crash ∧ q.Overflows

/-- A pass keeps the interface, or it fails for one of the two reasons. -/
theorem run_follows_or_places (context : c.Built) (kernels : c.kernels.WellTyped)
    (valid : p.Valid (.ruled c.within True)) (pass : PassName) :
    match pass.run c p with
    | .ok q => p.Follows q c.within True
    | .error e => p.Fails c pass e := by
  by_cases places : pass = .placement
  · subst places
    have follows : match Placement.run c p with
        | .ok q => p.Follows q c.within True
        | .error _ => True :=
      Placement.run_reaches (fun reaches l same => Option.some.inj same ▸ reaches)
        (fun _ reaches l same => Option.some.inj same ▸ reaches) valid fun _ _ _ _ _ => trivial
    unfold PassName.run
    cases ran : Placement.run c p with
    | error e => exact .inl ⟨rfl, ran⟩
    | ok q =>
      rw [ran] at follows
      exact follows
  · have follows := PassName.run_follows context.keeps_within (fun _ => kernels.typed)
      (fun wrong => absurd ⟨trivial, kernels⟩ wrong) places valid
    cases ran : pass.run c p with
    | error e =>
      rw [ran] at follows
      exact .inr (follows.resolve_left id)
    | ok q =>
      rw [ran] at follows
      exact follows

/-- A run of passes ends in a program with the same interface, or one of them fails on what the passes before it led
to. -/
theorem runPasses_follows (context : c.Built) (kernels : c.kernels.WellTyped)
    (valid : p.Valid (.ruled c.within True)) (passes : List PassName) :
    match p.runPasses c passes with
    | .ok (q, _) => p.Follows q c.within True
    | .error e => ∃ done pass rest q report, passes = done ++ pass :: rest ∧
        p.runPasses c done = .ok (q, report) ∧ q.Fails c pass e := by
  induction passes generalizing p with
  | nil => exact .refl valid
  | cons pass passes ih =>
    have one := run_follows_or_places context kernels valid pass
    rw [runPasses]
    cases ran : pass.run c p with
    | error e =>
      rw [ran] at one
      exact ⟨[], pass, passes, p, [], rfl, rfl, one⟩
    | ok next =>
      rw [ran] at one
      have later := ih one.valid
      rw [ok_bind]
      cases rest : next.runPasses c passes with
      | ok result =>
        rw [rest] at later
        exact one.trans later
      | error e =>
        rw [rest] at later
        obtain ⟨done, failing, after, q, report, split, before, fails⟩ := later
        obtain ⟨report', whole⟩ := runPasses_cons_ok ran before
        exact ⟨pass :: done, failing, after, q, report', by rw [split]; rfl, whole, fails⟩

/-- What the passes make of an accepted program on a fresh graph is accepted as well, and takes, gives and updates
values of the same kinds and ranks in the same order. No pass fails but placement, and the canonical form where sizes of
constants overflow. -/
theorem passes_keep_interface (built : p.graph.Built) (accepted : p.validate = .ok ()) (context : c.Built)
    (kernels : c.kernels.WellTyped) (passes : List PassName) :
    match p.runPasses c passes with
    | .ok (q, _) => q.validate = .ok () ∧ p.SameTypes q
    | .error e => ∃ done pass rest q report, passes = done ++ pass :: rest ∧
        p.runPasses c done = .ok (q, report) ∧ q.Fails c pass e := by
  have valid : p.Valid (.ruled c.within True) :=
    (valid_of_validate built.sound accepted).mono (Discipline.within_of_fresh c trivial)
  obtain ⟨some, targets⟩ := accepted_parts accepted
  have follows := runPasses_follows context kernels valid passes
  cases ran : p.runPasses c passes with
  | error e =>
    rw [ran] at follows
    exact follows
  | ok result =>
    rw [ran] at follows
    have types := follows.types trivial
    exact ⟨follows.valid.accepted trivial (types.hasResult some) (follows.targets targets), types⟩

section

open scoped BlockRoutine

theorem passes_keep_interface_negatedSum : ∃ q report,
    negatedSum.runPasses (.first (.sim 0)) (PassName.all ++ PassName.all.reverse) = .ok (q, report) ∧
      q.validate = .ok () ∧ negatedSum.SameTypes q := by
  have runs : (negatedSum.runPasses (.first (.sim 0)) (PassName.all ++ PassName.all.reverse)).isOk := by
    decide +kernel
  obtain ⟨⟨q, report⟩, ran⟩ := exists_of_isOk runs
  have accepted : negatedSum.validate = .ok () := by decide +kernel
  have keeps := passes_keep_interface (c := .first (.sim 0)) Graph.built_negatedSum accepted Context.built_first
    Kernels.wellTyped_host (PassName.all ++ PassName.all.reverse)
  rw [ran] at keeps
  exact ⟨q, report, ran, keeps⟩

/-- Another pass than placement fails. -/
theorem canonicalize_crashes_hugeProduct : hugeProduct.graph.Built ∧ hugeProduct.validate = .ok () ∧
    PassName.canonicalize.run (.first (.sim 0)) hugeProduct = .error .crash :=
  ⟨built_hugeProduct, by decide +kernel, eq_error_of_failure (by decide +kernel)⟩

end

end Program

end TensorGraph
