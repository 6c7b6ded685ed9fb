import TensorGraph.Proofs.Graph.Located
import TensorGraph.Proofs.Pass.Mirrors

/-! What a rebuild keeps if it ends, whatever program it is of. A condition on rebuilds that copies of leaves keep
holds at the end once every step keeps it. -/
namespace TensorGraph

open Checked Rebuilding

theorem Rebuilding.Meets.of_ok {α : Type} {act : Rebuilding α} {r r' : Rebuild} {fails : Error → Prop}
    {post : α → Rebuild → Prop} {a : α} (met : act.Meets r fails post) (ran : act r = .ok (a, r')) : post a r' := by
  simpa only [Meets, ran] using met

theorem Rebuilding.meets_of_eq {α : Type} {act : Rebuilding α} {r r' : Rebuild} {fails : Error → Prop}
    {post : α → Rebuild → Prop} {a : α} (ran : act r = .ok (a, r')) (held : post a r') : act.Meets r fails post := by
  simpa only [Meets, ran] using held

/-- The rebuild with another image of a variable. -/
def Rebuild.imaged (r : Rebuild) (v w : VarId) : Rebuild :=
  { r with image := fun u => if u = v then some w else r.image u }

@[simp] theorem Rebuild.imaged_self (r : Rebuild) (v w : VarId) : (r.imaged v w).image v = some w := if_pos rfl

theorem Rebuild.imaged_other {r : Rebuild} {u v : VarId} (other : u ≠ v) (w : VarId) :
    (r.imaged v w).image u = r.image u := if_neg other

theorem Rebuild.imaged_isSome {r : Rebuild} {u : VarId} (imaged : (r.image u).isSome) (v w : VarId) :
    ((r.imaged v w).image u).isSome := by
  by_cases same : u = v
  · rw [same, imaged_self]
    rfl
  · rwa [imaged_other same]

/-- The rebuild with a copy of a leaf. -/
def Rebuild.copied (r : Rebuild) (v : VarId) (x : Var) : Rebuild :=
  ⟨(r.graph.pushLeaf x).1, fun u => if u = v then some r.graph.vars.size else r.image u, r.known⟩

/-- Copies of leaves keep a condition on the rebuilds of a program. -/
def Program.Copying (p : Program) (kept : Rebuild → Prop) : Prop :=
  ∀ {r : Rebuild} {v : VarId} {x : Var}, kept r → r.image v = none → p.graph.vars[v]? = some x → x.isLeaf →
    kept (r.copied v x)

namespace Rebuild

variable {p : Program} {r : Rebuild} {kept : Rebuild → Prop}

theorem copied_grows {v : VarId} (fresh : r.image v = none) (x : Var) : r.Grows (r.copied v x) where
  graph := Graph.pushLeaf_grows r.graph x
  image := image_bound fresh _

theorem read_keeps (copying : p.Copying kept) (held : kept r) (v : VarId) :
    (read p v).Meets r (fun _ => True) fun w r' => kept r' ∧ r.Grows r' ∧ r'.image v = some w := by
  unfold read
  rw [meets_bind, meets_get]
  cases imaged : r.image v with
  | some w => exact ⟨held, .refl r, imaged⟩
  | none =>
    simp only
    rw [meets_bind, meets_lift]
    cases atV : p.graph.var v with
    | error e => trivial
    | ok x =>
      by_cases isLeaf : x.isLeaf
      · simp only [isLeaf, Bool.not_true, Bool.false_eq_true, ↓reduceIte, meets_bind, leaf, bind, meets_get,
          meets_set, meets_pure, meets_modify]
        exact ⟨copying held imaged (Graph.var_eq_ok.mp atV) isLeaf, copied_grows imaged x, by simp⟩
      · simp [isLeaf]

theorem readAll_keeps (copying : p.Copying kept) (held : kept r) (vs : List VarId) :
    (readAll p vs).Meets r (fun _ => True) fun ws r' =>
      kept r' ∧ r.Grows r' ∧ List.Forall₂ (fun v w => r'.image v = some w) vs ws := by
  refine meets_mapM (fun done ws r' => kept r' ∧ r.Grows r' ∧
    List.Forall₂ (fun v w => r'.image v = some w) done ws) vs ⟨held, .refl r, .nil⟩ ?_ fun _ _ held => held
  rintro before v after ws r₁ - ⟨held₁, grows₁, images⟩
  refine (read_keeps copying held₁ v).mono ?_
  rintro w r₂ ⟨held₂, grows₂, image⟩
  refine ⟨held₂, grows₁.trans grows₂, ?_⟩
  exact List.rel_append (images.imp fun _ _ at_ => grows₂.image at_) (.cons image .nil)

/-- The place of a variable that there is. -/
theorem place_spec {fails : Error → Prop} (v : VarId) (missing : r.graph.vars[v]? = none → ∀ e, fails e) :
    (Rebuild.place v).Meets r fails fun place r' =>
      r' = r ∧ place = r.graph.placeOf v ∧ ∃ x, r.graph.vars[v]? = some x := by
  unfold Rebuild.place
  rw [meets_bind, meets_get, meets_bind, meets_lift]
  cases atV : r.graph.vars[v]? with
  | none =>
    cases found : r.graph.ty v with
    | error e => exact missing atV _
    | ok ty =>
      obtain ⟨x, atV', -⟩ := Graph.ty_eq_ok.mp found
      cases atV.symm.trans atV'
  | some x =>
    rw [Graph.ty_eq_ok.mpr ⟨x, atV, rfl⟩]
    exact ⟨rfl, (Graph.placeOf_eq atV).symm, x, rfl⟩

theorem emit_eq_ok {op : Op} {inputs : List VarId} {tys : List Ty} {ty : Ty} (types : r.graph.Types inputs tys)
    (inferred : op.infer tys = .ok ty) (place : Place) (mark : Option Nat) : emit op inputs place mark r =
      .ok (r.graph.vars.size, { r with graph := r.graph.grown op inputs ty place mark }) := by
  have pushed : r.graph.push op inputs place mark =
      .ok (r.graph.grown op inputs ty place mark, r.graph.vars.size) :=
    Graph.push_eq_ok.mpr ⟨tys, ty, types, inferred, rfl, rfl⟩
  rw [emit, get_bind, lift_bind, pushed]
  rfl

/-- An operation that is emitted is the last one of the graph, and accepts the types of its operands. -/
theorem emit_typed (op : Op) (inputs : List VarId) (place : Place) (mark : Option Nat) :
    (emit op inputs place mark).Meets r (fun _ => True) fun w r' => w = r.graph.vars.size ∧ ∃ tys ty,
      r.graph.Types inputs tys ∧ op.infer tys = .ok ty ∧
        r' = { r with graph := r.graph.grown op inputs ty place mark } := by
  simp only [emit, meets_bind, meets_get, meets_lift]
  cases pushed : r.graph.push op inputs place mark with
  | error e => trivial
  | ok added =>
    obtain ⟨g, v⟩ := added
    obtain ⟨tys, ty, types, inferred, rfl, rfl⟩ := Graph.push_eq_ok.mp pushed
    simp only [meets_set, meets_pure]
    exact ⟨trivial, tys, ty, types, inferred, rfl⟩

theorem emit_spec (op : Op) (inputs : List VarId) (place : Place) (mark : Option Nat) :
    (emit op inputs place mark).Meets r (fun _ => True) fun w r' =>
      w = r.graph.vars.size ∧ ∃ ty, r' = { r with graph := r.graph.grown op inputs ty place mark } :=
  (emit_typed op inputs place mark).mono fun _ _ ⟨last, _, ty, _, _, grown⟩ => ⟨last, ty, grown⟩

theorem known?_spec (op : Op) (inputs : List VarId) : (known? op inputs).Meets r (fun _ => True) fun found r' => r' = r ∧
    (∀ v, found = some v → ((op, inputs), v) ∈ r.known) ∧ (found = none → ∀ v, ((op, inputs), v) ∉ r.known) := by
  simp only [known?, meets_bind, meets_get, meets_pure, true_and, Option.map_eq_none_iff, List.find?_eq_none]
  refine ⟨fun v found => ?_, fun none v member => none _ member (by simp)⟩
  obtain ⟨e, atE, rfl⟩ := Option.map_eq_some_iff.mp found
  have key : e.1 = (op, inputs) := by simpa using List.find?_some atE
  rw [← key]
  exact List.mem_of_find?_eq_some atE

theorem known?_of_absent {op : Op} {inputs : List VarId} (absent : ∀ v, ((op, inputs), v) ∉ r.known) :
    known? op inputs r = .ok (none, r) := by
  have met := known?_spec (r := r) op inputs
  have ran : known? op inputs r = .ok ((r.known.find? fun e => e.1 == (op, inputs)).map Prod.snd, r) := rfl
  cases found : (r.known.find? fun e => e.1 == (op, inputs)).map Prod.snd with
  | none => rw [ran, found]
  | some v => exact absurd ((met.of_ok ran).2.1 v found) (absent v)

end Rebuild

namespace Program

variable {p q : Program} {step : Node → Rebuilding Unit}

theorem finish_keeps {r : Rebuild} {kept : Rebuild → Prop} (copying : p.Copying kept) (held : kept r) :
    (Rebuild.finish p).Meets r (fun _ => True) fun q r' => kept r' ∧ q.graph = r'.graph ∧
      List.Forall₂ (fun v w => r'.image v = some w) p.inputs q.inputs ∧
      List.Forall₂ (fun v w => r'.image v = some w) p.outputs q.outputs ∧
      List.Forall₂ (fun u u' => r'.image u.1 = some u'.1 ∧ r'.image u.2 = some u'.2) p.updates q.updates := by
  unfold Rebuild.finish
  rw [meets_bind]
  refine (Rebuild.readAll_keeps copying held p.inputs).mono ?_
  rintro inputs r₁ ⟨held₁, -, atInputs⟩
  rw [meets_bind]
  refine (Rebuild.readAll_keeps copying held₁ p.outputs).mono ?_
  rintro outputs r₂ ⟨held₂, grows₂, atOutputs⟩
  rw [meets_bind]
  refine meets_mapM (fun done us r' => kept r' ∧ r₂.Grows r' ∧
    List.Forall₂ (fun u u' => r'.image u.1 = some u'.1 ∧ r'.image u.2 = some u'.2) done us) p.updates
    ⟨held₂, .refl r₂, .nil⟩ ?_ ?_
  · rintro before u after us r₃ - ⟨held₃, grows₃, images⟩
    rw [meets_bind]
    refine (Rebuild.read_keeps copying held₃ u.1).mono ?_
    rintro target r₄ ⟨held₄, grows₄, atTarget⟩
    rw [meets_bind]
    refine (Rebuild.read_keeps copying held₄ u.2).mono ?_
    rintro value r₅ ⟨held₅, grows₅, atValue⟩
    refine ⟨held₅, (grows₃.trans grows₄).trans grows₅, ?_⟩
    refine List.rel_append (images.imp fun _ _ at_ => ?_) (.cons ⟨grows₅.image atTarget, atValue⟩ .nil)
    exact ⟨grows₅.image (grows₄.image at_.1), grows₅.image (grows₄.image at_.2)⟩
  · rintro us r' ⟨held', grows', images⟩
    rw [meets_bind, meets_get, meets_pure]
    exact ⟨held', rfl, atInputs.imp fun _ _ at_ => grows'.image (grows₂.image at_),
      atOutputs.imp fun _ _ at_ => grows'.image at_, images⟩

/-- A rebuild keeps what its steps keep. Its inputs are copies of leaves: nothing else has an image at the start. -/
theorem rebuilding_keeps (kept : List Node → Rebuild → Prop) (start : kept [] (.start p))
    (copying : ∀ done, p.Copying (kept done))
    (each : ∀ {before after : List Node} {n : Node} {r : Rebuild}, p.liveNodes = before ++ n :: after →
      kept before r → (step n).Meets r (fun _ => True) fun _ r' => kept (before ++ [n]) r')
    {r : Rebuild} (built : p.rebuilding step = .ok (q, r)) : kept p.liveNodes r ∧ q.graph = r.graph ∧
      List.Forall₂ (fun v w => (∃ x, p.graph.vars[v]? = some x ∧ x.isLeaf) ∧ r.image v = some w)
        p.inputs q.inputs ∧
      List.Forall₂ (fun v w => r.image v = some w) p.outputs q.outputs ∧
      List.Forall₂ (fun u u' => r.image u.1 = some u'.1 ∧ r.image u.2 = some u'.2) p.updates q.updates := by
  have whole : (do
      discard (Rebuild.readAll p p.inputs)
      p.liveNodes.forM step
      Rebuild.finish p : Rebuilding Program).Meets (.start p) (fun _ => True) fun q r => kept p.liveNodes r ∧
        q.graph = r.graph ∧ List.Forall₂ (fun v w => (∃ x, p.graph.vars[v]? = some x ∧ x.isLeaf) ∧
          r.image v = some w) p.inputs q.inputs ∧
        List.Forall₂ (fun v w => r.image v = some w) p.outputs q.outputs ∧
        List.Forall₂ (fun u u' => r.image u.1 = some u'.1 ∧ r.image u.2 = some u'.2) p.updates q.updates := by
    have opened : (discard (Rebuild.readAll p p.inputs) : Rebuilding Unit) =
        (fun _ => ()) <$> Rebuild.readAll p p.inputs := rfl
    rw [meets_bind, opened, meets_map]
    -- Before the first step, leaves alone have images.
    have copyingLeaves : p.Copying fun r => kept [] r ∧
        ∀ v w, r.image v = some w → ∃ x, p.graph.vars[v]? = some x ∧ x.isLeaf := by
      rintro r v x ⟨held, leaves⟩ fresh atV isLeaf
      refine ⟨copying [] held fresh atV isLeaf, fun u w atU => ?_⟩
      by_cases same : u = v
      · exact ⟨x, same ▸ atV, isLeaf⟩
      · exact leaves u w (by simpa [Rebuild.copied, same] using atU)
    refine (Rebuild.readAll_keeps copyingLeaves ⟨start, fun v w at_ => by cases at_⟩ p.inputs).mono ?_
    rintro inputs r₀ ⟨⟨held₀, leaves⟩, -, images⟩
    rw [meets_bind]
    refine meets_forM kept p.liveNodes held₀ (fun before n after r split held => each split held) fun r held => ?_
    refine (finish_keeps (copying _) held).mono ?_
    rintro q r' ⟨held', graph, atInputs, roots⟩
    refine ⟨held', graph, List.forall₂_iff_zip.mpr ⟨atInputs.length_eq, fun {v w} member => ?_⟩, roots⟩
    obtain ⟨w₀, -, image⟩ := partner images (List.of_mem_zip member).1
    exact ⟨leaves v w₀ image, (List.forall₂_iff_zip.mp atInputs).2 member⟩
  exact whole.of_ok built

theorem rebuild_keeps (kept : List Node → Rebuild → Prop) (start : kept [] (.start p))
    (copying : ∀ done, p.Copying (kept done))
    (each : ∀ {before after : List Node} {n : Node} {r : Rebuild}, p.liveNodes = before ++ n :: after →
      kept before r → (step n).Meets r (fun _ => True) fun _ r' => kept (before ++ [n]) r')
    (built : p.rebuild step = .ok q) : ∃ r, kept p.liveNodes r ∧ q.graph = r.graph ∧
      List.Forall₂ (fun v w => (∃ x, p.graph.vars[v]? = some x ∧ x.isLeaf) ∧ r.image v = some w)
        p.inputs q.inputs ∧
      List.Forall₂ (fun v w => r.image v = some w) p.outputs q.outputs ∧
      List.Forall₂ (fun u u' => r.image u.1 = some u'.1 ∧ r.image u.2 = some u'.2) p.updates q.updates := by
  obtain ⟨⟨q', r⟩, ran, rfl⟩ := map_eq_ok.mp built
  exact ⟨r, rebuilding_keeps kept start copying each ran⟩

end Program

end TensorGraph
