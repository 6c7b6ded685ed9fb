import TensorGraph.Pass.Pipeline
import TensorGraph.Proofs.Logic.Together
import TensorGraph.Proofs.Pass.Placement

/-! Programs that differ in what their roots do not need. Rebuilds read such programs through their roots alone: the
new numbers depend on the order in which live operations read and make values, not on the old numbers. So a pass that
rebuilds both gives one result. -/
namespace TensorGraph

open Checked Rebuilding

/-- The live parts of two programs are the same, up to a renaming of variables that keeps different ones apart. -/
structure Program.Matches (p q : Program) (image : VarId → Option VarId) : Prop where
  float : q.graph.float = p.graph.float
  injective : ∀ {u v w : VarId}, image u = some w → image v = some w → u = v
  vars : ∀ {v w : VarId}, image v = some w → ∃ x y, p.graph.vars[v]? = some x ∧ q.graph.vars[w]? = some y ∧
    y.ty = x.ty ∧ (y = x ∨ ¬ x.isLeaf ∧ ¬ y.isLeaf)
  nodes : List.Forall₂ (fun n m => n.CopiedAs m image n.inPlace) p.liveNodes q.liveNodes
  inputs : List.Forall₂ (fun v w => image v = some w) p.inputs q.inputs
  outputs : List.Forall₂ (fun v w => image v = some w) p.outputs q.outputs
  updates : List.Forall₂ (fun u u' => image u.1 = some u'.1 ∧ image u.2 = some u'.2) p.updates q.updates

namespace Rebuild

variable {p q : Program} {image : VarId → Option VarId} {r r' : Rebuild}

theorem Alongside.bound (along : r.Alongside image r') (agrees : p.Matches q image) {v w : VarId}
    (at_ : image v = some w) (new : VarId) :
    Alongside image { r with image := fun u => if u = v then some new else r.image u }
      { r' with image := fun u => if u = w then some new else r'.image u } where
  graph := along.graph
  known := along.known
  image {u z} atU := by
    simp only
    by_cases same : u = v
    · subst same
      rw [if_pos rfl, if_pos (Option.some.inj (atU.symm.trans at_))]
    · have other : z ≠ w := by
        rintro rfl
        exact same (agrees.injective atU at_)
      rw [if_neg same, if_neg other, along.image atU]

theorem together_bind (along : r.Alongside image r') (agrees : p.Matches q image) {v w : VarId}
    (at_ : image v = some w) (new : VarId) : Together image (bind v new) (bind w new) r r' :=
  ⟨rfl, along.bound agrees at_ new⟩

theorem together_leaf (along : r.Alongside image r') (x : Var) : Together image (leaf x) (leaf x) r r' := by
  have graph := along.graph
  refine ⟨congrArg (fun g => (g.pushLeaf x).2) graph, ⟨congrArg (fun g => (g.pushLeaf x).1) graph, along.known, along.image⟩⟩

theorem together_constant (along : r.Alongside image r') (t : Tensor) :
    Together image (constant t) (constant t) r r' := together_leaf along _

theorem together_emit (along : r.Alongside image r') (op : Op) (inputs : List VarId) (place : Place)
    (mark : Option Nat) : Together image (emit op inputs place mark) (emit op inputs place mark) r r' := by
  unfold emit
  refine together_get_bind ((together_lift along ?_).bind fun added s s' _ => ?_)
  · rw [along.graph]
    exact .refl (fun _ => rfl) _
  · exact ⟨rfl, ⟨rfl, along.known, along.image⟩⟩

theorem together_known? (along : r.Alongside image r') (op : Op) (inputs : List VarId) :
    Together image (known? op inputs) (known? op inputs) r r' := by
  unfold known?
  refine together_get_bind ?_
  rw [along.known]
  exact together_pure along _

theorem together_note (along : r.Alongside image r') (op : Op) (inputs : List VarId) (v : VarId) :
    Together image (note op inputs v) (note op inputs v) r r' :=
  ⟨rfl, ⟨along.graph, congrArg (fun known => ((op, inputs), v) :: known) along.known, along.image⟩⟩

theorem together_place (along : r.Alongside image r') (v : VarId) : Together image (place v) (place v) r r' := by
  unfold place
  refine together_get_bind ((together_lift along ?_).bind fun ty s s' along => together_pure along _)
  rw [along.graph]
  exact .refl (fun _ => rfl) _

/-- The result of an operation cannot be read before there is an image of it. -/
theorem read_eq_error {v : VarId} {x : Var} (unread : r.image v = none) (atV : p.graph.vars[v]? = some x)
    (notLeaf : ¬ x.isLeaf) : read p v r = .error (.message (varName v ++ " is read before it was rewritten")) := by
  have opened : read p v r = (do
      let x ← liftM (p.graph.var v)
      if !x.isLeaf then throw (.message (varName v ++ " is read before it was rewritten"))
      let new ← leaf x
      bind v new
      return new : Rebuilding VarId) r := by
    have known : (get : Rebuilding Rebuild) r = .ok (r, r) := rfl
    unfold read
    rw [bind_apply, known, ok_bind, unread]
  rw [opened, Graph.var_eq_ok.mpr atV, bind_apply]
  change (if (!x.isLeaf) = true then _ else _ : Rebuilding VarId) r = _
  rw [if_pos (by simpa using notLeaf)]
  rfl

/-- Variables that go together are read with the same result. -/
theorem together_read (along : r.Alongside image r') (agrees : p.Matches q image) {v w : VarId}
    (at_ : image v = some w) : Together image (read p v) (read q w) r r' := by
  obtain ⟨x, y, atV, atW, -, same⟩ := agrees.vars at_
  have images := along.image at_
  cases imaged : r'.image w with
  | some new =>
    unfold read
    refine together_get_bind ?_
    rw [images, imaged]
    exact together_pure along new
  | none =>
    rw [imaged] at images
    rcases same with rfl | ⟨notLeafX, notLeafY⟩
    · unfold read
      refine together_get_bind ?_
      rw [images, imaged]
      simp only [Graph.var_eq_ok.mpr atV, Graph.var_eq_ok.mpr atW]
      refine (together_lift along (.refl (fun _ => rfl) _)).bind fun x s s' along => ?_
      by_cases isLeaf : x.isLeaf
      · simp only [isLeaf, Bool.not_true, Bool.false_eq_true, ↓reduceIte]
        refine (together_leaf along x).bind fun new s s' along => ?_
        exact (together_bind along agrees at_ new).bind fun _ s s' along => together_pure along new
      · simp only [isLeaf]
        exact together_throw _ _
    · exact together_of_error (read_eq_error images atV notLeafX) (read_eq_error imaged atW notLeafY)

theorem together_readAll (along : r.Alongside image r') (agrees : p.Matches q image) {vs ws : List VarId}
    (images : List.Forall₂ (fun v w => image v = some w) vs ws) :
    Together image (readAll p vs) (readAll q ws) r r' :=
  together_mapM images (fun _ _ _ _ _ at_ along => together_read along agrees at_) along

theorem together_finish (along : r.Alongside image r') (agrees : p.Matches q image) :
    Together image (finish p) (finish q) r r' := by
  unfold finish
  refine (together_readAll along agrees agrees.inputs).bind fun inputs s s' along => ?_
  refine (together_readAll along agrees agrees.outputs).bind fun outputs s s' along => ?_
  refine (together_mapM agrees.updates (fun u u' s s' _ at_ along => ?_) along).bind fun updates s s' along => ?_
  · refine (together_read along agrees at_.1).bind fun target s s' along => ?_
    exact (together_read along agrees at_.2).bind fun value s s' along => together_pure along (target, value)
  · refine together_get_bind ?_
    rw [along.graph]
    exact together_pure along _

end Rebuild

namespace Program

variable {p q : Program} {image : VarId → Option VarId} {c : Context}

/-- Rebuilds whose steps go together make the same program. -/
theorem Matches.rebuild (agrees : p.Matches q image) {step step' : Node → Rebuilding Unit}
    (each : ∀ (n m : Node) (s s' : Rebuild), n ∈ p.liveNodes → n.CopiedAs m image n.inPlace →
      s.Alongside image s' → Together image (step n) (step' m) s s') :
    Agree Eq (p.rebuild step) (q.rebuild step') := by
  have start : (Rebuild.start p).Alongside image (.start q) :=
    ⟨congrArg Graph.empty agrees.float.symm, rfl, fun _ => rfl⟩
  have read : Together image (discard (Rebuild.readAll p p.inputs) : Rebuilding Unit)
      (discard (Rebuild.readAll q q.inputs)) (.start p) (.start q) :=
    (Rebuild.together_readAll start agrees agrees.inputs).bind fun _ _ _ along => together_pure along ()
  have opened : Together image (p.opening step p.liveNodes) (q.opening step' q.liveNodes) (.start p) (.start q) :=
    read.bind fun _ s s' along => together_forM agrees.nodes each along
  have whole : Together image (p.opening step p.liveNodes >>= fun _ => Rebuild.finish p)
      (q.opening step' q.liveNodes >>= fun _ => Rebuild.finish q) (.start p) (.start q) :=
    opened.bind fun _ s s' along => Rebuild.together_finish along agrees
  rw [rebuild_eq, rebuild_eq]
  exact Agree.map whole fun a b same => same.1

theorem Matches.prune (agrees : p.Matches q image) : Agree Eq p.prune q.prune := by
  refine agrees.rebuild fun n m s s' _ copied along => ?_
  unfold Rebuild.copy
  refine (Rebuild.together_readAll along agrees copied.inputs).bind fun ws s s' along => ?_
  rw [copied.op, copied.place, copied.inPlace]
  exact (Rebuild.together_emit along ..).bind fun w s s' along => Rebuild.together_bind along agrees copied.output w

theorem Matches.canonical (agrees : p.Matches q image) : Agree Eq (Canonical.run c p) (Canonical.run c q) := by
  refine agrees.rebuild fun n m s s' _ copied along => ?_
  unfold Canonical.step
  refine (Rebuild.together_readAll along agrees copied.inputs).bind fun args s s' along => ?_
  rw [copied.op, copied.place, copied.inPlace]
  have settle : ∀ {s s' : Rebuild} (w : VarId), s.Alongside image s' →
      Together image (Rebuild.bind n.output w) (Rebuild.bind m.output w) s s' :=
    fun w along => Rebuild.together_bind along agrees copied.output w
  refine together_get_bind ?_
  rw [along.graph]
  cases Canonical.negated? s'.graph n.op args with
  | some w => exact (settle w along).bind fun _ s s' along => together_pure along _
  | none =>
    simp only
    refine together_get_bind ?_
    rw [along.graph]
    refine (together_lift along (.refl (fun _ => rfl) _)).bind fun found s s' along => ?_
    cases found with
    | some t =>
      refine (Rebuild.together_constant along t).bind fun w s s' along => ?_
      exact (settle w along).bind fun _ s s' along => together_pure along _
    | none =>
      simp only
      refine (Rebuild.together_known? along ..).bind fun found s s' along => ?_
      cases found with
      | some w => exact (settle w along).bind fun _ s s' along => together_pure along _
      | none =>
        simp only
        refine (Rebuild.together_emit along ..).bind fun w s s' along => ?_
        exact (settle w along).bind fun _ s s' along => Rebuild.together_note along ..

theorem Matches.ty (agrees : p.Matches q image) {v w : VarId} (at_ : image v = some w) :
    p.graph.ty v = q.graph.ty w := by
  obtain ⟨x, y, atV, atW, same, -⟩ := agrees.vars at_
  rw [Graph.ty_eq_ok.mpr ⟨x, atV, rfl⟩, Graph.ty_eq_ok.mpr ⟨y, atW, same⟩]

theorem Matches.tys (agrees : p.Matches q image) {vs ws : List VarId}
    (images : List.Forall₂ (fun v w => image v = some w) vs ws) : p.graph.tys vs = q.graph.tys ws := by
  induction images with
  | nil => rfl
  | cons at_ _ ih => rw [Graph.tys, Graph.tys, agrees.ty at_, ih]

theorem Matches.hostLeaves (agrees : p.Matches q image) :
    (Placement.hostLeaves p).Matches (Placement.hostLeaves q) image where
  float := agrees.float
  injective := agrees.injective
  vars at_ := by
    obtain ⟨x, y, atV, atW, ty, same⟩ := agrees.vars at_
    refine ⟨_, _, Placement.hostLeaves_of atV, Placement.hostLeaves_of atW, ?_, ?_⟩
    · rcases same with rfl | ⟨notLeafX, notLeafY⟩
      · rfl
      · simp only [Placement.hosted, notLeafX, notLeafY]
        exact ty
    · refine same.imp (congrArg Placement.hosted) ?_
      rintro ⟨notLeafX, notLeafY⟩
      simp [Placement.hosted, notLeafX, notLeafY]
  nodes := agrees.nodes
  inputs := agrees.inputs
  outputs := agrees.outputs
  updates := agrees.updates

theorem Matches.admits (t : Table) {n m : Node} (op : m.op = n.op) (kinds : List Kind) :
    Agree Eq (Placement.admits t n kinds) (Placement.admits t m kinds) := by
  unfold Placement.admits
  rw [op]
  cases t.supports n.op kinds <;> trivial

/-- An operation and its copy are sent to one place, or neither can be placed. -/
theorem Matches.choose (agrees : p.Matches q image) {n m : Node} (copied : n.CopiedAs m image n.inPlace) :
    Agree Eq (Placement.choose c p.graph n) (Placement.choose c q.graph m) := by
  have kinds : Placement.kindsOf q.graph m = Placement.kindsOf p.graph n := by
    rw [Placement.kindsOf, Placement.kindsOf, agrees.tys copied.inputs, agrees.ty copied.output]
  unfold Placement.choose
  rw [kinds]
  refine (Agree.refl (fun _ => rfl) _).bind ?_
  rintro kinds _ rfl
  refine (Agree.refl (fun _ => rfl) _).bind ?_
  rintro t _ rfl
  have preferred := admits t copied.op kinds
  simp only [preferred.isOk]
  by_cases runs : (Placement.admits t m kinds).isOk
  · simp only [if_pos runs]
    rfl
  simp only [if_neg runs]
  by_cases strict : c.target.isHost ∨ c.config.fallback = .strict
  · simp only [if_pos strict]
    exact preferred.bind fun _ _ _ => rfl
  · simp only [if_neg strict]
    refine (Agree.refl (fun _ => rfl) _).bind ?_
    rintro t _ rfl
    exact (admits t copied.op kinds).bind fun _ _ _ => rfl

theorem together_moved {r r' : Rebuild} (along : r.Alongside image r') (dest : Location) (v : VarId) :
    Together image (Placement.moved dest v) (Placement.moved dest v) r r' := by
  unfold Placement.moved
  refine (Rebuild.together_place along v).bind fun place s s' along => ?_
  by_cases here : place.getD .host = dest
  · simp only [here, ↓reduceIte]
    exact together_pure along v
  · simp only [here, ↓reduceIte]
    refine (Rebuild.together_known? along ..).bind fun found s s' along => ?_
    cases found with
    | some t => exact together_pure along t
    | none =>
      simp only
      refine (Rebuild.together_emit along ..).bind fun t s s' along => ?_
      exact (Rebuild.together_note along ..).bind fun _ s s' along => together_pure along t

theorem Matches.placement (agrees : p.Matches q image) : Agree Eq (Placement.run c p) (Placement.run c q) := by
  have hosted := agrees.hostLeaves
  refine hosted.rebuild fun n m s s' _ copied along => ?_
  unfold Placement.step
  rw [copied.op, copied.inPlace]
  have settle : ∀ {s s' : Rebuild} (w : VarId), s.Alongside image s' →
      Together image (Rebuild.bind n.output w) (Rebuild.bind m.output w) s s' :=
    fun w along => Rebuild.together_bind along hosted copied.output w
  cases Placement.destination? c.target n.op with
  | some dest =>
    have operands := copied.inputs
    cases inputs : n.inputs with
    | nil =>
      rw [inputs, List.forall₂_nil_left_iff] at operands
      simp only [operands]
      exact together_throw _ _
    | cons v vs =>
      rw [inputs] at operands
      obtain ⟨w, ws, at_, -, same⟩ := List.forall₂_cons_left_iff.mp operands
      simp only [same]
      refine (Rebuild.together_read along hosted at_).bind fun x s s' along => ?_
      exact (together_moved along dest x).bind fun y s s' along => settle y along
  | none =>
    simp only
    refine (together_lift along (hosted.choose copied)).bind fun place s s' along => ?_
    refine (together_mapM copied.inputs (fun v w s s' _ at_ along => ?_) along).bind fun ws s s' along => ?_
    · refine (Rebuild.together_read along hosted at_).bind fun x s s' along => together_moved along place x
    · exact (Rebuild.together_emit along ..).bind fun w s s' along => settle w along

end Program

end TensorGraph
