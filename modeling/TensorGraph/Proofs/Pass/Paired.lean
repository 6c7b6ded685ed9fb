import TensorGraph.Proofs.Pass.Keeping
import TensorGraph.Proofs.Pass.Rebuilt

/-! Two rebuilds of one program that make the same graph, with the same images. If their steps agree, so do the
programs that they make. -/
namespace TensorGraph

open Checked Rebuilding

/-- A relation between rebuilds of a program that have made the same graph with the same images. Copies of leaves keep
it. -/
structure Program.Pairs (p : Program) (paired : Rebuild → Rebuild → Prop) : Prop where
  graph : ∀ {r r' : Rebuild}, paired r r' → r.graph = r'.graph
  image : ∀ {r r' : Rebuild}, paired r r' → r.image = r'.image
  copied : ∀ {r r' : Rebuild} {v : VarId} {x : Var}, paired r r' → r.image v = none → p.graph.vars[v]? = some x →
    x.isLeaf → paired (r.copied v x) (r'.copied v x)

namespace Rebuild

variable {p : Program} {r r' : Rebuild} {paired : Rebuild → Rebuild → Prop}

/-- A leaf without an image is copied when it is read, and nothing else is. -/
theorem read_eq (p : Program) (r : Rebuild) (v : VarId) : read p v r = match r.image v with
    | some w => .ok (w, r)
    | none => p.graph.var v >>= fun x =>
      if x.isLeaf then .ok (r.graph.vars.size, r.copied v x)
      else .error (.message (varName v ++ " is read before it was rewritten")) := by
  unfold read
  rw [get_bind]
  cases r.image v with
  | some w => rfl
  | none =>
    simp only
    rw [lift_bind]
    cases p.graph.var v with
    | error e => rfl
    | ok x =>
      simp only [ok_bind]
      cases x.isLeaf <;> rfl

theorem read_agree (pairs : p.Pairs paired) (held : paired r r') (v : VarId) :
    Agree (fun a b => a.1 = b.1 ∧ paired a.2 b.2 ∧ b.2.image v = some b.1) (read p v r) (read p v r') := by
  rw [read_eq, read_eq, pairs.image held, pairs.graph held]
  cases imaged : r'.image v with
  | some w => exact ⟨rfl, held, imaged⟩
  | none =>
    simp only
    cases atV : p.graph.var v with
    | error e => trivial
    | ok x =>
      simp only [ok_bind]
      by_cases isLeaf : x.isLeaf
      · simp only [isLeaf, ↓reduceIte]
        exact ⟨rfl, pairs.copied held (by rw [pairs.image held, imaged]) (Graph.var_eq_ok.mp atV) isLeaf,
          by simp [copied]⟩
      · simp only [isLeaf, Bool.false_eq_true, ↓reduceIte]
        trivial

theorem readAll_agree (pairs : p.Pairs paired) (held : paired r r') (vs : List VarId) :
    Agree (fun a b => a.1 = b.1 ∧ paired a.2 b.2) (readAll p vs r) (readAll p vs r') := by
  unfold readAll
  induction vs generalizing r r' with
  | nil => exact ⟨rfl, held⟩
  | cons v vs ih =>
    rw [List.mapM_cons, bind_apply, bind_apply]
    refine (read_agree pairs held v).bind ?_
    rintro ⟨w, s⟩ ⟨_, s'⟩ ⟨rfl, held, -⟩
    simp only [bind_apply]
    refine (ih held).bind ?_
    rintro ⟨ws, t⟩ ⟨_, t'⟩ ⟨rfl, held⟩
    exact ⟨rfl, held⟩

/-- An operation is added to both graphs, or to neither. -/
theorem emit_agree (graph : r.graph = r'.graph) (op : Op) (inputs : List VarId) (place : Place) (mark : Option Nat) :
    Agree (fun a b => a.1 = b.1 ∧ b.1 = r'.graph.vars.size ∧ ∃ ty,
      a.2 = { r with graph := r'.graph.grown op inputs ty place mark } ∧
        b.2 = { r' with graph := r'.graph.grown op inputs ty place mark })
      (emit op inputs place mark r) (emit op inputs place mark r') := by
  have emitted : ∀ s : Rebuild, emit op inputs place mark s = (s.graph.push op inputs place mark >>= fun added =>
      .ok (added.2, { s with graph := added.1 })) := by
    intro s
    rw [emit, get_bind, lift_bind]
    cases s.graph.push op inputs place mark <;> rfl
  rw [emitted, emitted, graph]
  cases pushed : r'.graph.push op inputs place mark with
  | error e => trivial
  | ok added =>
    obtain ⟨g, v⟩ := added
    obtain ⟨tys, ty, -, -, rfl, rfl⟩ := Graph.push_eq_ok.mp pushed
    exact ⟨rfl, rfl, ty, rfl, rfl⟩

end Rebuild

namespace Program

variable {p : Program} {r r' : Rebuild} {step step' : Node → Rebuilding Unit}

theorem finish_agree {paired : Rebuild → Rebuild → Prop} (pairs : p.Pairs paired) (held : paired r r') :
    Agree (fun a b => a.1 = b.1 ∧ paired a.2 b.2) (Rebuild.finish p r) (Rebuild.finish p r') := by
  unfold Rebuild.finish
  simp only [bind_apply]
  refine (Rebuild.readAll_agree pairs held p.inputs).bind ?_
  rintro ⟨inputs, s⟩ ⟨_, s'⟩ ⟨rfl, held⟩
  refine (Rebuild.readAll_agree pairs held p.outputs).bind ?_
  rintro ⟨outputs, s⟩ ⟨_, s'⟩ ⟨rfl, held⟩
  have updates : ∀ us : List (VarId × VarId), ∀ {s s' : Rebuild}, paired s s' →
      Agree (fun a b => a.1 = b.1 ∧ paired a.2 b.2)
        ((us.mapM fun u => do return (← Rebuild.read p u.1, ← Rebuild.read p u.2) : Rebuilding _) s)
        ((us.mapM fun u => do return (← Rebuild.read p u.1, ← Rebuild.read p u.2) : Rebuilding _) s') := by
    intro us
    induction us with
    | nil => exact fun held => ⟨rfl, held⟩
    | cons u us ih =>
      intro s s' held
      rw [List.mapM_cons]
      simp only [bind_apply]
      refine ((Rebuild.read_agree pairs held u.1).bind ?_ : Agree (fun a b => a.1 = b.1 ∧ paired a.2 b.2) _ _).bind ?_
      · rintro ⟨target, s⟩ ⟨_, s'⟩ ⟨rfl, held, -⟩
        refine (Rebuild.read_agree pairs held u.2).bind ?_
        rintro ⟨value, s⟩ ⟨_, s'⟩ ⟨rfl, held, -⟩
        exact ⟨rfl, held⟩
      · rintro ⟨u', s⟩ ⟨_, s'⟩ ⟨rfl, held⟩
        refine (ih held).bind ?_
        rintro ⟨rest, s⟩ ⟨_, s'⟩ ⟨rfl, held⟩
        exact ⟨rfl, held⟩
  refine (updates p.updates held).bind ?_
  rintro ⟨us, s⟩ ⟨_, s'⟩ ⟨rfl, held⟩
  exact ⟨congrArg (fun g => Program.mk g inputs outputs us) (pairs.graph held), held⟩

/-- Rebuilds whose steps agree make one program and end alike, or both fail. -/
theorem rebuilding_agree {paired : List Node → Rebuild → Rebuild → Prop} (pairs : ∀ done, p.Pairs (paired done))
    (start : paired [] (.start p) (.start p))
    (each : ∀ {before after : List Node} {n : Node} {r r' : Rebuild}, p.liveNodes = before ++ n :: after →
      paired before r r' → Agree (fun a b => paired (before ++ [n]) a.2 b.2) (step n r) (step' n r')) :
    Agree (fun a b => a.1 = b.1 ∧ paired p.liveNodes a.2 b.2) (p.rebuilding step) (p.rebuilding step') := by
  have steps : ∀ after before r r', p.liveNodes = before ++ after → paired before r r' →
      Agree (fun a b => paired p.liveNodes a.2 b.2) (after.forM step r) (after.forM step' r') := by
    intro after
    induction after with
    | nil =>
      intro before r r' whole held
      rw [List.append_nil] at whole
      exact whole ▸ held
    | cons n after ih =>
      intro before r r' whole held
      rw [List.forM_eq_forM, List.forM_cons, List.forM_cons, bind_apply, bind_apply]
      refine (each whole held).bind fun a b held => ?_
      exact ih (before ++ [n]) a.2 b.2 (by simp [whole]) held
  have opened : Agree (fun a b => paired p.liveNodes a.2 b.2) (p.opening step p.liveNodes (.start p))
      (p.opening step' p.liveNodes (.start p)) := by
    have discarded : (discard (Rebuild.readAll p p.inputs) : Rebuilding Unit) =
        (fun _ => ()) <$> Rebuild.readAll p p.inputs := rfl
    unfold opening
    rw [bind_apply, bind_apply, discarded, map_eq_pure_bind, bind_apply]
    refine ((Rebuild.readAll_agree (pairs []) start p.inputs).bind fun a b held => ?_ :
      Agree (fun a b => paired [] a.2 b.2) _ _).bind fun a b held => ?_
    · exact held.2
    · exact steps p.liveNodes [] _ _ rfl held
  rw [rebuilding_eq, rebuilding_eq, bind_apply, bind_apply]
  exact opened.bind fun a b held => finish_agree (pairs _) held

theorem rebuild_agree {paired : List Node → Rebuild → Rebuild → Prop} (pairs : ∀ done, p.Pairs (paired done))
    (start : paired [] (.start p) (.start p))
    (each : ∀ {before after : List Node} {n : Node} {r r' : Rebuild}, p.liveNodes = before ++ n :: after →
      paired before r r' → Agree (fun a b => paired (before ++ [n]) a.2 b.2) (step n r) (step' n r')) :
    Agree Eq (p.rebuild step) (p.rebuild step') :=
  (rebuilding_agree pairs start each).map fun _ _ same => same.1

end Program

end TensorGraph
