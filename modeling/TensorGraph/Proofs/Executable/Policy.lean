import TensorGraph.Proofs.Executable.Compiles
import TensorGraph.Proofs.Executable.Pruned

/-! Placement follows the capability tables and the fallback policy to the letter. The passes after it do not undo this:
without a fallback nothing but transfers and layout operations ends up on the host. -/
namespace TensorGraph

open Checked

-- Where the product of blocks plays no part, any one serves for the lemmas that ask for it.
open scoped BlockRoutine

namespace Context

/-- Where operations may stand without a fallback: what is on the host moves values or their elements only. -/
def strictly (c : Context) : Op → Place → Prop := fun op place =>
  c.settled op place ∧ (place = some .host → op.isTransfer ∨ op.isLayout)

/-- A fused operation replaces one that is neither a transfer nor a layout operation. -/
theorem keeps_strictly (c : Context) : c.Keeps c.strictly True where
  table _ := .inr trivial
  layout layout _ held := ⟨held.1, fun _ => .inr layout⟩
  fused {op place} e fusable held := by
    have neither : ¬ op.isTransfer ∧ ¬ op.isLayout := by
      cases op <;> simp_all [Op.isFusable, Op.isTransfer, Op.isLayout]
    exact ⟨held.1, fun host => absurd (held.2 host) (not_or.mpr neither)⟩

end Context

/-- Without a fallback, placement leaves nothing that computes on the host. -/
theorem Placement.run_strictly {c : Context} {p : Program} {typed : Prop}
    (table : c.table c.target = .ok c.targetTable) (accelerated : c.target ≠ .host) (strict : c.config.fallback = .strict)
    (valid : p.Valid (.ruled anywhere typed)) :
    match Placement.run c p with
    | .ok q => p.Follows q c.strictly typed
    | .error _ => True := by
  have onTarget : ∀ l, l = c.target → l = .host ∨ l = c.target := fun _ => .inr
  refine run_follows onTarget
    (fun {dest} leads => ⟨⟨dest, rfl, leads⟩, fun _ => .inl (isTransfer_transferTo dest)⟩) (fun _ there => ?_) valid
    fun n live _ => ?_
  · exact ⟨⟨_, rfl, .inr there⟩, fun host => absurd (there.symm.trans (Option.some.inj host)) accelerated⟩
  · have spec := choice_spec table accelerated valid live
    cases chosen : choose c (hostLeaves p).graph n with
    | ok l =>
      rw [chosen] at spec
      exact spec.strict strict
    | error e => trivial

namespace Program

/-- What the tables and the policy of a context say about a program, and nothing else, decides where it runs. -/
structure FollowsTables (p : Program) (c : Context) : Prop where
  /-- Placement succeeds if every live operation that computes can go somewhere, -/
  succeeds : (Placement.run c p).isOk ↔ ∀ n ∈ p.liveNodes, ¬ n.op.isTransfer → c.Serves p.graph n
  /-- which without a fallback means that the accelerator runs it. -/
  strict : c.config.fallback = .strict →
    ((Placement.run c p).isOk ↔ ∀ n ∈ p.liveNodes, ¬ n.op.isTransfer → c.targetTable.Runs p.graph n)
  /-- The accelerator gets what its table covers, and the host the rest. -/
  sends : ∀ q, Placement.run c p = .ok q → ∃ image, p.Placed q image fun n l =>
    c.Sends p.graph n l ∧ (l = c.target ↔ c.targetTable.Runs p.graph n)
  /-- An error names a live operation that cannot go anywhere. -/
  refuses : ∀ e, Placement.run c p = .error e → ∃ n ∈ p.liveNodes, ¬ n.op.isTransfer ∧ ¬ c.Serves p.graph n ∧
    ∃ reason, e = .placement n.label n.op.text c.lastTable.name reason
  /-- Dead operations do not matter. -/
  dead : ∃ q image, p.prune = .ok q ∧ p.Stripped q image ∧ Agree Eq (Placement.run c p) (Placement.run c q)
  /-- Without a fallback only transfers and layout operations are commands of the host. -/
  commands : c.config.fallback = .strict → ∀ m f m', (p.compile c).start m = (.ok f, m') →
    ∀ cmd ∈ f.schedule.commands, cmd.location = .host → cmd.op.isTransfer ∨ cmd.op.isLayout

variable {c : Context} {p : Program}

/-- Without a fallback, the commands on the host are transfers and layout operations. -/
theorem commands_strictly (arises : p.graph.Arises) (table : c.table c.target = .ok c.targetTable)
    (accelerated : c.target ≠ .host) (strict : c.config.fallback = .strict) {s : Schedule}
    (scheduled : p.schedule c = .ok s) : s.Obeys c.strictly := by
  obtain ⟨⟨⟩, accepted, rest⟩ := bind_eq_ok.mp scheduled
  obtain ⟨passes, standard, -⟩ := bind_eq_ok.mp rest
  have places : ∀ q : Program, q.Valid (.ruled anywhere False) → match Placement.run c q with
      | .ok q' => q.Follows q' c.strictly False
      | .error _ => True := fun q valid => Placement.run_strictly table accelerated strict valid
  have met := schedule_obeys c.keeps_strictly False.elim (fun _ => trivial) And.left places
    (valid_of_validate (arises.sound False) accepted) accepted standard
  rw [scheduled] at met
  exact met

/-- On an accelerator, an accepted program is placed by the tables and the policy of the context. -/
theorem placement_follows_tables (arises : p.graph.Arises) (accepted : p.validate = .ok ()) (built : c.Built)
    (accelerated : c.target ≠ .host) : p.FollowsTables c := by
  have table := built.table_target
  have valid := valid_of_arises arises accepted
  have outcome := Placement.run_outcome table accelerated valid
  have succeeds : (Placement.run c p).isOk ↔ ∀ n ∈ p.liveNodes, ¬ n.op.isTransfer → c.Serves p.graph n := by
    rcases outcome with ⟨⟨q, -, ran, -⟩, serves⟩ | ⟨n, live, computes, refused, reason, ran⟩
    · exact iff_of_true (by rw [ran]; rfl) serves
    · exact iff_of_false (by rw [ran]; exact Bool.false_ne_true) fun serves => refused (serves n live computes)
  refine ⟨succeeds, fun strict => ?_, fun q ran => ?_, fun e ran => ?_, ?_, fun strict m f m' ran cmd member => ?_⟩
  · simpa only [Context.serves_strict strict] using succeeds
  · rcases outcome with ⟨⟨q', image, ran', placed⟩, -⟩ | ⟨n, -, -, -, reason, ran'⟩
    · obtain rfl := Except.ok.inj (ran.symm.trans ran')
      exact ⟨image, placed.mono fun n _ _ l sends => ⟨sends, sends.target_iff accelerated⟩⟩
    · cases ran.symm.trans ran'
  · rcases outcome with ⟨⟨q', -, ran', -⟩, -⟩ | ⟨n, live, computes, refused, reason, ran'⟩
    · cases ran.symm.trans ran'
    · exact ⟨n, live, computes, refused, reason, Except.error.inj (ran.symm.trans ran')⟩
  · obtain ⟨q, image, pruned, -, stripped⟩ := prune_stripped valid (Discipline.congruent_ruled anywhere True)
    exact ⟨q, image, pruned, stripped, stripped.agrees.placement⟩
  · rw [compile_start] at ran
    cases scheduled : p.schedule c with
    | error e =>
      rw [scheduled] at ran
      cases ran
    | ok s =>
      rw [scheduled] at ran
      cases ran
      intro host
      exact (commands_strictly arises table accelerated strict scheduled cmd member).2 (congrArg some host)

section

open scoped BlockRoutine

/-- The accelerator has no double precision: without a fallback the program is refused, and with one it is not. -/
theorem placement_follows_tables_wideNegation :
    wideNegation.FollowsTables (.first (.sim 0)) ∧ ¬ (Placement.run (.first (.sim 0)) wideNegation).isOk ∧
      wideNegation.FollowsTables (.first (.sim 0) .warn) ∧ (Placement.run (.first (.sim 0) .warn) wideNegation).isOk := by
  have accepted : wideNegation.validate = .ok () := by decide +kernel
  have follows : ∀ fallback, wideNegation.FollowsTables (.first (.sim 0) fallback) := fun fallback =>
    placement_follows_tables Graph.built_wideNegation.arises accepted Context.built_first nofun
  exact ⟨follows .strict, by decide +kernel, follows .warn, by decide +kernel⟩

end

end Program

end TensorGraph
