import TensorGraph.Proofs.Pass.Canonical
import TensorGraph.Proofs.Pass.Keeping

/-! What a step of the canonical form can do with an operation, once its operands are read: take what a double negation
negates, compute a constant, share the result of an equal operation, or add the operation. -/
namespace TensorGraph

open Checked Rebuilding

namespace Canonical

/-- What becomes of an operation with these new operands. -/
inductive Outcome (c : Context) (n : Node) (args : List VarId) (r : Rebuild) : Rebuild → Prop where
  | negated {w : VarId} (found : negated? r.graph n.op args = some w) : Outcome c n args r (r.imaged n.output w)
  | folded {t : Tensor} (positive : negated? r.graph n.op args = none)
      (fold : fold? c.kernels c.config.foldLimit r.graph n.op (ordered n.op args) = .ok (some t)) :
      Outcome c n args r (Rebuild.imaged { r with graph := (r.graph.constant t).1 } n.output r.graph.vars.size)
  | shared {v : VarId} (positive : negated? r.graph n.op args = none)
      (unfolded : fold? c.kernels c.config.foldLimit r.graph n.op (ordered n.op args) = .ok none)
      (known : ((n.op, ordered n.op args), v) ∈ r.known) : Outcome c n args r (r.imaged n.output v)
  | added {tys : List Ty} {ty : Ty} (positive : negated? r.graph n.op args = none)
      (unfolded : fold? c.kernels c.config.foldLimit r.graph n.op (ordered n.op args) = .ok none)
      (unknown : ∀ v, ((n.op, ordered n.op args), v) ∉ r.known) (types : r.graph.Types (ordered n.op args) tys)
      (inferred : n.op.infer tys = .ok ty) :
      Outcome c n args r (Rebuild.imaged ⟨r.graph.grown n.op (ordered n.op args) ty n.place n.inPlace, r.image,
        ((n.op, ordered n.op args), r.graph.vars.size) :: r.known⟩ n.output r.graph.vars.size)

variable {c : Context} {p : Program} {r : Rebuild}

/-- A step reads the operands and then does one of these. -/
theorem step_outcome {kept : Rebuild → Prop} (copying : p.Copying kept) (held : kept r) (n : Node) :
    (step c p n).Meets r (fun _ => True) fun _ r' => ∃ args r₁, kept r₁ ∧ r.Grows r₁ ∧
      List.Forall₂ (fun v w => r₁.image v = some w) n.inputs args ∧ Outcome c n args r₁ r' := by
  unfold step
  rw [meets_bind]
  refine (Rebuild.readAll_keeps copying held n.inputs).mono ?_
  rintro args r₁ ⟨held₁, grows, images⟩
  suffices outcome : ∀ {act : Rebuilding Unit}, act.Meets r₁ (fun _ => True) (fun _ r' => Outcome c n args r₁ r') →
      act.Meets r₁ (fun _ => True) fun _ r' => ∃ args r₁, kept r₁ ∧ r.Grows r₁ ∧
        List.Forall₂ (fun v w => r₁.image v = some w) n.inputs args ∧ Outcome c n args r₁ r' by
    refine outcome ?_
    rw [meets_bind, meets_get]
    cases found : negated? r₁.graph n.op args with
    | some w => exact .negated found
    | none =>
      simp only
      rw [meets_bind, meets_get, meets_bind, meets_lift]
      cases fold : fold? c.kernels c.config.foldLimit r₁.graph n.op (ordered n.op args) with
      | error e => trivial
      | ok folded =>
        cases folded with
        | some t => exact .folded found fold
        | none =>
          simp only
          rw [meets_bind]
          refine (Rebuild.known?_spec n.op (ordered n.op args)).mono ?_
          rintro known r₂ ⟨rfl, there, absent⟩
          cases known with
          | some v => exact .shared found fold (there v rfl)
          | none =>
            simp only
            rw [meets_bind]
            refine (Rebuild.emit_typed n.op _ n.place n.inPlace).mono ?_
            rintro _ _ ⟨rfl, tys, ty, types, inferred, rfl⟩
            exact .added found fold (absent rfl) types inferred
  exact fun met => met.mono fun _ _ outcome => ⟨args, r₁, held₁, grows, images, outcome⟩

end Canonical

end TensorGraph
