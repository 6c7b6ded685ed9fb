import TensorGraph.Proofs.Pass.Choice
import TensorGraph.Proofs.Pass.Located

/-! What placement makes of a program: every live operation that computes stands in the new graph once, in the old
order, where the choice sent it, and reads what it read before, some of it transferred. -/
namespace TensorGraph

open Checked Rebuilding

/-- Whether an operation computes anything new. -/
def Node.computes (n : Node) : Bool := !n.op.isTransfer

namespace Graph

/-- A transfer takes a value to another variable. -/
def Moves (g : Graph) (v w : VarId) : Prop :=
  ∃ t ∈ g.nodes.toList, t.op.isTransfer ∧ t.inputs = [v] ∧ t.output = w

/-- A variable of the graph is the image of another one, transferred or not. -/
def Sees (g : Graph) (image : VarId → Option VarId) (v w : VarId) : Prop :=
  ∃ u, image v = some u ∧ (w = u ∨ g.Moves u w)

variable {g g' : Graph}

theorem Moves.mono {v w : VarId} (moves : g.Moves v w) (more : g.nodes.toList ⊆ g'.nodes.toList) : g'.Moves v w := by
  obtain ⟨t, member, isTransfer, inputs, output⟩ := moves
  exact ⟨t, more member, isTransfer, inputs, output⟩

theorem Sees.mono {image image' : VarId → Option VarId} {v w : VarId} (sees : g.Sees image v w)
    (more : g.nodes.toList ⊆ g'.nodes.toList) (kept : ∀ {u z : VarId}, image u = some z → image' u = some z) :
    g'.Sees image' v w := by
  obtain ⟨u, at_, same⟩ := sees
  exact ⟨u, kept at_, same.imp_right fun moves => moves.mono more⟩

theorem Grows.nodes_subset (grows : g.Grows g') : g.nodes.toList ⊆ g'.nodes.toList := by
  intro n member
  obtain ⟨i, at_⟩ := List.mem_iff_getElem?.mp member
  rw [Array.getElem?_toList] at at_
  exact Sound.mem_toList (grows.nodes at_)

end Graph

/-- An operation stands for another one in a placed graph. -/
structure Node.SentAs (n m : Node) (image : VarId → Option VarId) (g : Graph) : Prop where
  op : m.op = n.op
  inPlace : m.inPlace = n.inPlace
  inputs : List.Forall₂ (g.Sees image) n.inputs m.inputs
  output : image n.output = some m.output

theorem Node.SentAs.mono {n m : Node} {image image' : VarId → Option VarId} {g g' : Graph} (sent : n.SentAs m image g)
    (more : g.nodes.toList ⊆ g'.nodes.toList) (kept : ∀ {u z : VarId}, image u = some z → image' u = some z) :
    n.SentAs m image' g' :=
  { sent with
    inputs := sent.inputs.imp fun _ _ sees => sees.mono more kept
    output := kept sent.output }

namespace Placement

/-- How far placement is: the operations that are done and compute are in the new graph where they were sent. -/
structure Sent (c : Context) (p : Program) (done : List Node) (r : Rebuild) : Prop where
  nodes : List.Forall₂ (fun n m => n.SentAs m r.image r.graph ∧ ∃ l, choose c p.graph n = .ok l ∧ m.place = some l)
    (done.filter Node.computes) (r.graph.nodes.toList.filter Node.computes)
  moves : ∀ {l : Location} {x w : VarId}, ((Op.transferTo l, [x]), w) ∈ r.known → r.graph.Moves x w
  domain : ∀ {v w : VarId}, r.image v = some w →
    (∃ x, p.graph.vars[v]? = some x ∧ x.isLeaf) ∨ ∃ n ∈ done, n.output = v

variable {c : Context} {p : Program} {done : List Node} {r : Rebuild}

theorem sent_start : Sent c p [] (.start p) where
  nodes := .nil
  moves member := by cases member
  domain at_ := by cases at_

theorem Sent.copying (done : List Node) : p.Copying (Sent c p done) := by
  intro r v x sent fresh atV isLeaf
  have grows := Rebuild.copied_grows fresh x
  refine ⟨sent.nodes.imp fun n m here => ⟨here.1.mono grows.graph.nodes_subset grows.image, here.2⟩,
    fun member => (sent.moves member).mono grows.graph.nodes_subset, fun {u w} atU => ?_⟩
  by_cases same : u = v
  · exact .inl ⟨x, same ▸ atV, isLeaf⟩
  · exact sent.domain (by simpa [Rebuild.copied, same] using atU)

theorem nodes_grown (g : Graph) (op : Op) (inputs : List VarId) (ty : Ty) (place : Place) (mark : Option Nat) :
    (g.grown op inputs ty place mark).nodes.toList =
      g.nodes.toList ++ [⟨g.nodes.size, op, inputs, g.vars.size, place, mark⟩] := Array.toList_push

/-- A new transfer is noted, and changes nothing for what computes. -/
theorem Sent.transferred (sent : Sent c p done r) (dest : Location) (v : VarId) (ty : Ty) :
    Sent c p done ⟨r.graph.grown (.transferTo dest) [v] ty (some dest) none, r.image,
      ((.transferTo dest, [v]), r.graph.vars.size) :: r.known⟩ where
  nodes := by
    have stays : (r.graph.grown (.transferTo dest) [v] ty (some dest) none).nodes.toList.filter Node.computes =
        r.graph.nodes.toList.filter Node.computes := by
      rw [nodes_grown, List.filter_append]
      simp [Node.computes, isTransfer_transferTo]
    rw [stays]
    exact sent.nodes.imp fun n m here => ⟨here.1.mono (Graph.grown_grows ..).nodes_subset id, here.2⟩
  moves {l x w} member := by
    rcases List.mem_cons.mp member with new | old
    · simp only [Prod.mk.injEq, List.cons.injEq] at new
      obtain ⟨⟨-, rfl, -⟩, rfl⟩ := new
      exact ⟨_, by rw [nodes_grown]; exact List.mem_append_right _ (List.mem_singleton_self _),
        isTransfer_transferTo dest, rfl, rfl⟩
    · exact (sent.moves old).mono (Graph.grown_grows ..).nodes_subset
  domain := sent.domain

theorem Moved.sent {dest : Location} {v w : VarId} {r' : Rebuild} (moved : Moved r dest v w r') (sent : Sent c p done r) :
    Sent c p done r' ∧ (w = v ∨ r'.graph.Moves v w) := by
  cases moved with
  | here => exact ⟨sent, .inl rfl⟩
  | known member => exact ⟨sent, .inr (sent.moves member)⟩
  | @added _ ty =>
    have sent' := sent.transferred dest v ty
    exact ⟨sent', .inr (sent'.moves List.mem_cons_self)⟩

theorem movedAll_sent (sent : Sent c p done r) (dest : Location) (vs : List VarId) :
    (vs.mapM fun v => do moved dest (← Rebuild.read p v)).Meets r (fun _ => True) fun ws r' =>
      Sent c p done r' ∧ List.Forall₂ (r'.graph.Sees r'.image) vs ws := by
  refine meets_mapM (fun seen ws r' => Sent c p done r' ∧ List.Forall₂ (r'.graph.Sees r'.image) seen ws) vs
    ⟨sent, .nil⟩ ?_ fun _ _ held => held
  rintro before v after ws r₁ - ⟨sent₁, sees⟩
  rw [meets_bind]
  refine (Rebuild.read_keeps (Sent.copying done) sent₁ v).mono ?_
  rintro w r₂ ⟨sent₂, grows₂, image⟩
  refine (moved_outcome r₂ dest w).mono fun w' r₃ moved => ?_
  obtain ⟨sent₃, same⟩ := moved.sent sent₂
  have grows := grows₂.trans moved.grows
  refine ⟨sent₃, List.rel_append (sees.imp fun _ _ held => held.mono grows.graph.nodes_subset grows.image) ?_⟩
  exact .cons ⟨w, moved.grows.image image, same⟩ .nil

theorem Sent.domain_bound (sent : Sent c p done r) (n : Node) (w : VarId) {u z : VarId}
    (at_ : (if u = n.output then some w else r.image u) = some z) :
    (∃ x, p.graph.vars[u]? = some x ∧ x.isLeaf) ∨ ∃ m ∈ done ++ [n], m.output = u := by
  by_cases same : u = n.output
  · exact .inr ⟨n, by simp, same.symm⟩
  · rw [if_neg same] at at_
    refine (sent.domain at_).imp_right ?_
    rintro ⟨m, member, output⟩
    exact ⟨m, List.mem_append_left _ member, output⟩

/-- One more operation is placed. -/
theorem step_sent (sent : Sent c p done r) {n : Node}
    (computed : ∀ x : Var, p.graph.vars[n.output]? = some x → ¬ x.isLeaf) (apart : ∀ m ∈ done, m.output ≠ n.output) :
    (step c p n).Meets r (fun _ => True) fun _ r' => Sent c p (done ++ [n]) r' := by
  unfold step
  cases leads : destination? c.target n.op with
  | some dest =>
    cases n.inputs with
    | nil => trivial
    | cons x rest =>
      simp only
      rw [meets_bind]
      refine (Rebuild.read_keeps (Sent.copying done) sent x).mono ?_
      rintro w r₁ ⟨sent₁, -, -⟩
      rw [meets_bind]
      refine (moved_outcome r₁ dest w).mono fun w' r₂ moved => ?_
      obtain ⟨sent₂, -⟩ := moved.sent sent₁
      have kept := fun {u z : VarId} (at_ : r₂.image u = some z) =>
        Rebuild.image_bound (Rebuild.unread_of_domain sent₂.domain computed apart) w' at_
      refine ⟨?_, sent₂.moves, sent₂.domain_bound n w'⟩
      have skips : (done ++ [n]).filter Node.computes = done.filter Node.computes := by
        simp [List.filter_append, Node.computes, (destination?_some leads).1]
      rw [skips]
      exact sent₂.nodes.imp fun _ _ here => ⟨here.1.mono (List.Subset.refl _) kept, here.2⟩
  | none =>
    have computes : n.computes = true := by simpa [Node.computes] using destination?_none leads
    simp only
    rw [meets_bind, meets_lift]
    cases chosen : choose c p.graph n with
    | error e => trivial
    | ok l =>
      simp only
      rw [meets_bind]
      refine (movedAll_sent sent l n.inputs).mono ?_
      rintro ws r₁ ⟨sent₁, sees⟩
      rw [meets_bind]
      refine (Rebuild.emit_spec n.op ws (some l) n.inPlace).mono ?_
      rintro _ _ ⟨rfl, ty, rfl⟩
      have kept := fun {u z : VarId} (at_ : r₁.image u = some z) =>
        Rebuild.image_bound (Rebuild.unread_of_domain sent₁.domain computed apart) r₁.graph.vars.size at_
      have more := (Graph.grown_grows r₁.graph n.op ws ty (some l) n.inPlace).nodes_subset
      refine ⟨?_, fun member => (sent₁.moves member).mono more, sent₁.domain_bound n _⟩
      have last : (⟨r₁.graph.nodes.size, n.op, ws, r₁.graph.vars.size, some l, n.inPlace⟩ : Node).computes = true :=
        computes
      rw [nodes_grown, List.filter_append, List.filter_append, List.filter_cons_of_pos computes,
        List.filter_cons_of_pos last]
      refine List.rel_append (sent₁.nodes.imp fun _ _ here => ⟨here.1.mono more kept, here.2⟩) (.cons ⟨?_, ?_⟩ .nil)
      · exact ⟨rfl, rfl, sees.imp fun _ _ held => held.mono more kept, if_pos rfl⟩
      · exact ⟨l, chosen, rfl⟩

end Placement

/-- The second program is the first one with every operation that computes at a location it may go to. -/
structure Program.Placed (p q : Program) (image : VarId → Option VarId) (goes : Node → Location → Prop) : Prop where
  nodes : List.Forall₂ (fun n m => n.SentAs m image q.graph ∧ ∃ l, goes n l ∧ m.place = some l)
    (p.liveNodes.filter Node.computes) (q.graph.nodes.toList.filter Node.computes)
  inputs : List.Forall₂ (fun v w => image v = some w) p.inputs q.inputs
  outputs : List.Forall₂ (fun v w => image v = some w) p.outputs q.outputs
  updates : List.Forall₂ (fun u u' => image u.1 = some u'.1 ∧ image u.2 = some u'.2) p.updates q.updates

theorem Node.computes_iff {n : Node} : n.computes ↔ ¬ n.op.isTransfer := by simp [Node.computes]

theorem Program.Placed.mono {p q : Program} {image : VarId → Option VarId} {goes goes' : Node → Location → Prop}
    (placed : p.Placed q image goes)
    (implies : ∀ n ∈ p.liveNodes, ¬ n.op.isTransfer → ∀ l, goes n l → goes' n l) : p.Placed q image goes' := by
  have live : ∀ n ∈ p.liveNodes.filter Node.computes, n ∈ p.liveNodes ∧ ¬ n.op.isTransfer := fun n member =>
    ⟨(List.mem_filter.mp member).1, Node.computes_iff.mp (List.mem_filter.mp member).2⟩
  refine { placed with nodes := ((List.forall₂_and_left _ _).mpr ⟨live, placed.nodes⟩).imp ?_ }
  rintro n m ⟨⟨member, computes⟩, sent, l, goes, place⟩
  exact ⟨sent, l, implies n member computes l goes, place⟩

namespace Placement

variable {c : Context} {p q : Program} {d : Discipline}

/-- Every operation that computes is sent where the choice says. -/
theorem rebuild_placed (valid : p.Valid d) (ran : p.rebuild (step c p) = .ok q) :
    ∃ image, p.Placed q image fun n l => choose c p.graph n = .ok l := by
  have each : ∀ {before after : List Node} {n : Node} {r : Rebuild}, p.liveNodes = before ++ n :: after →
      Sent c p before r → (step c p n).Meets r (fun _ => True) fun _ r' => Sent c p (before ++ [n]) r' := by
    intro before after n r split sent
    obtain ⟨tys, ty, x, known⟩ := valid.operation (n := n) (by simp [split])
    refine step_sent sent (fun y atV => ?_) fun m member => Nat.ne_of_lt (valid.graph.live_earlier split m member)
    obtain rfl : x = y := Option.some.inj (known.atOutput.symm.trans atV)
    exact known.notLeaf
  obtain ⟨r, sent, graph, inputs, outputs, updates⟩ :=
    Program.rebuild_keeps (Sent c p) sent_start Sent.copying each ran
  exact ⟨r.image, graph ▸ sent.nodes, inputs.imp fun _ _ held => held.2, outputs, updates⟩

/-- Tables are asked for kinds, which do not depend on where leaves are. -/
theorem runs_hostLeaves {t : Table} {n : Node} : t.Runs (hostLeaves p).graph n ↔ t.Runs p.graph n := by
  constructor
  · intro runs v member x atV
    rw [(hosted_alike x).1]
    exact runs v member _ (hostLeaves_of atV)
  · intro runs v member y atV
    obtain ⟨x, atOld, rfl⟩ := hostLeaves_some atV
    rw [← (hosted_alike x).1]
    exact runs v member x atOld

theorem sends_hostLeaves {n : Node} {l : Location} : c.Sends (hostLeaves p).graph n l ↔ c.Sends p.graph n l := by
  constructor
  · rintro (runs | ⟨refused, lenient, runs⟩)
    · exact .target (runs_hostLeaves.mp runs)
    · exact .host (mt runs_hostLeaves.mpr refused) lenient (runs_hostLeaves.mp runs)
  · rintro (runs | ⟨refused, lenient, runs⟩)
    · exact .target (runs_hostLeaves.mpr runs)
    · exact .host (mt runs_hostLeaves.mp refused) lenient (runs_hostLeaves.mpr runs)

/-- What placement chooses for an operation of a valid program on an accelerator. -/
theorem choice_spec {typed : Prop} (table : c.table c.target = .ok c.targetTable) (accelerated : c.target ≠ .host)
    (valid : p.Valid (.ruled anywhere typed)) {n : Node} (live : n ∈ p.liveNodes) :
    match choose c (hostLeaves p).graph n with
    | .ok l => c.Sends p.graph n l
    | .error e => ¬ c.Serves p.graph n ∧ ∃ reason, e = .placement n.label n.op.text c.lastTable.name reason := by
  have hosted := hostLeaves_valid (hosts_ruled anywhere typed) valid
  have live' : n ∈ (hostLeaves p).liveNodes := live
  obtain ⟨tys, ty, x, known⟩ := hosted.operation live'
  have spec := choose_spec table accelerated known
  cases chosen : choose c (hostLeaves p).graph n with
  | ok l =>
    rw [chosen] at spec
    exact sends_hostLeaves.mp spec
  | error e =>
    rw [chosen] at spec
    obtain ⟨refused, reason, same⟩ := spec
    refine ⟨?_, reason, same⟩
    rintro ⟨l, sends⟩
    exact refused ⟨l, sends_hostLeaves.mpr sends⟩

/-- On an accelerator, placement sends every operation where the tables and the policy say, or there is an operation
for which they say nothing, and it is refused. -/
theorem run_outcome (table : c.table c.target = .ok c.targetTable) (accelerated : c.target ≠ .host)
    (valid : p.Valid (.ruled anywhere True)) :
    ((∃ q image, run c p = .ok q ∧ p.Placed q image (c.Sends p.graph)) ∧
        ∀ n ∈ p.liveNodes, ¬ n.op.isTransfer → c.Serves p.graph n) ∨
      ∃ n ∈ p.liveNodes, ¬ n.op.isTransfer ∧ ¬ c.Serves p.graph n ∧
        ∃ reason, run c p = .error (.placement n.label n.op.text c.lastTable.name reason) := by
  have hosted := hostLeaves_valid (hosts_ruled anywhere True) valid
  rcases rebuild_outcome (c := c) hosted with ⟨⟨q, ran⟩, each⟩ | ⟨n, live, computes, e, chosen, ran⟩
  · have sends : ∀ n ∈ p.liveNodes, ∀ l, choose c (hostLeaves p).graph n = .ok l → c.Sends p.graph n l := by
      intro n live l chosen
      have spec := choice_spec table accelerated valid live
      rw [chosen] at spec
      exact spec
    obtain ⟨image, placed⟩ := rebuild_placed hosted ran
    refine .inl ⟨⟨q, image, ran, ?_⟩, fun n live computes => ?_⟩
    · have placed' := placed.mono fun n live _ => sends n live
      exact ⟨placed'.nodes, placed'.inputs, placed'.outputs, placed'.updates⟩
    · obtain ⟨l, chosen⟩ := exists_of_isOk (each n live computes)
      exact ⟨l, sends n live l chosen⟩
  · have spec := choice_spec table accelerated valid live
    rw [chosen] at spec
    obtain ⟨refused, reason, rfl⟩ := spec
    exact .inr ⟨n, live, computes, refused, reason, ran⟩

end Placement

end TensorGraph
