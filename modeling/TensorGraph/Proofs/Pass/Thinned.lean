import TensorGraph.Proofs.Executable.Pruned
import TensorGraph.Proofs.Pass.Shedding

/-! One round of the removal of transfers leaves none that could be avoided. What computes a variable does not change
when the graph grows, and copies compute what they are copies of, so a transfer that could not be avoided when it was
added cannot be avoided in the result either. -/
namespace TensorGraph

open Checked Rebuilding

-- Where the product of blocks plays no part, any one serves for the lemmas that ask for it.
open scoped BlockRoutine

namespace Graph

variable {g g' : Graph} {c : Context} {x : VarId} {dest : Location}

/-- What is added to a graph later opens no way around a transfer. -/
theorem Unavoidable.grows (stuck : g.Unavoidable c x dest) (located : g.Located) (owned : g.Owned) (grows : g.Grows g')
    (inRange : x < g.vars.size) : g'.Unavoidable c x dest := by
  have operand : ∀ {v u : VarId} {m : Node}, g.producer? v = some m → m.inputs = [u] → u < g.vars.size :=
    fun produced single => by
      obtain ⟨⟨i, at_⟩, -⟩ := owned.of_producer? produced
      exact located.reads_lt at_ (by simp [single])
  refine ⟨?_, fun {m u} atX moves single => ?_, fun {m y} atX layout single k w atY moves single' there => ?_⟩
  · rw [grows.placeOf_eq inRange]
    exact stuck.away
  · rw [owned.producer?_grows grows inRange] at atX
    rw [grows.placeOf_eq (operand atX single)]
    exact stuck.back atX moves single
  · rw [owned.producer?_grows grows inRange] at atX
    rw [owned.producer?_grows grows (operand atX single)] at atY
    rw [grows.placeOf_eq (operand atY single')] at there
    obtain ⟨t, z, tabled, atW, refused⟩ := stuck.turned atX layout single atY moves single' there
    exact ⟨t, z, tabled, grows.vars atW, refused⟩

/-- Images have the types of the variables, and what computes an image computes the variable, on images of its
operands. -/
structure Traces (g g' : Graph) (image : VarId → Option VarId) : Prop where
  typed : ∀ {v w : VarId}, image v = some w → ∃ x y, g.vars[v]? = some x ∧ g'.vars[w]? = some y ∧ y.ty = x.ty
  produced : ∀ {v w : VarId} {m : Node}, image v = some w → g'.producer? w = some m → ∃ n, g.producer? v = some n ∧
    m.op = n.op ∧ List.Forall₂ (fun v w => image v = some w) n.inputs m.inputs

namespace Traces

variable {image : VarId → Option VarId}

theorem placeOf (traces : g.Traces g' image) {v w : VarId} (at_ : image v = some w) : g'.placeOf w = g.placeOf v := by
  obtain ⟨x, y, atV, atW, same⟩ := traces.typed at_
  rw [placeOf_eq atV, placeOf_eq atW, same]

/-- An operation of one operand is traced to one of one operand. -/
theorem single (traces : g.Traces g' image) {v w u : VarId} {m : Node} (at_ : image v = some w)
    (produced : g'.producer? w = some m) (inputs : m.inputs = [u]) :
    ∃ n u', g.producer? v = some n ∧ m.op = n.op ∧ n.inputs = [u'] ∧ image u' = some u := by
  obtain ⟨n, atV, op, images⟩ := traces.produced at_ produced
  rw [inputs] at images
  obtain ⟨u', rest, atU, none, whole⟩ := List.forall₂_cons_right_iff.mp images
  rw [List.forall₂_nil_right_iff.mp none] at whole
  exact ⟨n, u', atV, op, whole, atU⟩

end Traces

/-- There is no way around a transfer of an image if there was none around that of the variable. -/
theorem Unavoidable.traced {image : VarId → Option VarId} (stuck : g.Unavoidable c x dest) (traces : g.Traces g' image)
    {x' : VarId} (at_ : image x = some x') : g'.Unavoidable c x' dest := by
  refine ⟨?_, fun {m u} atX moves single => ?_, fun {m y} atX layout single k w atY moves single' there => ?_⟩
  · rw [traces.placeOf at_]
    exact stuck.away
  · obtain ⟨n, u', atX, op, single, atU⟩ := traces.single at_ atX single
    rw [traces.placeOf atU]
    exact stuck.back atX (op ▸ moves) single
  · obtain ⟨n, y', atX, op, single, atY'⟩ := traces.single at_ atX single
    obtain ⟨k', w', atY, op', single', atW⟩ := traces.single atY' atY single'
    rw [traces.placeOf atW] at there
    obtain ⟨t, z, tabled, atZ, refused⟩ := stuck.turned atX (op ▸ layout) single atY (op' ▸ moves) single' there
    obtain ⟨z', z'', atZ', atZ'', same⟩ := traces.typed atW
    obtain rfl : z = z' := Option.some.inj (atZ.symm.trans atZ')
    exact ⟨t, z'', tabled, atZ'', by rw [op, same]; exact refused⟩

/-- No transfer can be avoided, and there is at most one operation for each of those that are done, and at most one
transfer for each of their transfers. -/
structure Sparse (g : Graph) (c : Context) (done : List Node) : Prop where
  needed : ∀ {i : NodeId} {n : Node}, g.nodes[i]? = some n → n.op.isTransfer →
    ∃ l, n.place = some l ∧ ∀ x ∈ n.inputs, g.Unavoidable c x l
  nodes : g.nodes.size ≤ done.length
  transfers : g.transferCount ≤ done.countP fun n => n.op.isTransfer

namespace Sparse

variable {done : List Node}

theorem empty (float : Kind) (c : Context) : (Graph.empty float).Sparse c [] where
  needed at_ := by simp [Graph.empty] at at_
  nodes := Nat.le_refl 0
  transfers := Nat.le_refl 0

/-- What was needed is needed in a larger graph too. -/
theorem needed_grows (sparse : g.Sparse c done) (located : g.Located) (owned : g.Owned) (grows : g.Grows g') {i : NodeId}
    {n : Node} (at_ : g.nodes[i]? = some n) (moves : n.op.isTransfer) :
    ∃ l, n.place = some l ∧ ∀ x ∈ n.inputs, g'.Unavoidable c x l := by
  obtain ⟨l, place, stuck⟩ := sparse.needed at_ moves
  exact ⟨l, place, fun x reads => (stuck x reads).grows located owned grows (located.reads_lt at_ reads)⟩

theorem pushLeaf (sparse : g.Sparse c done) (located : g.Located) (owned : g.Owned) (x : Var) :
    (g.pushLeaf x).1.Sparse c done where
  needed := sparse.needed_grows located owned (pushLeaf_grows g x)
  nodes := sparse.nodes
  transfers := sparse.transfers

theorem skipped (sparse : g.Sparse c done) (n : Node) : g.Sparse c (done ++ [n]) where
  needed := sparse.needed
  nodes := by
    rw [List.length_append]
    exact Nat.le_add_right_of_le sparse.nodes
  transfers := by
    rw [List.countP_append]
    exact Nat.le_add_right_of_le sparse.transfers

/-- An operation may be added for one that is done, a transfer for one that cannot be avoided. -/
theorem grown (sparse : g.Sparse c done) (located : g.Located) (owned : g.Owned) {n : Node} {op : Op}
    {inputs : List VarId} {place : Place} (transfer : op.isTransfer → n.op.isTransfer ∧
      ∃ l, place = some l ∧ ∀ x ∈ inputs, x < g.vars.size ∧ g.Unavoidable c x l) (ty : Ty) (mark : Option Nat) :
    (g.grown op inputs ty place mark).Sparse c (done ++ [n]) where
  needed {i m} at_ moves := by
    have grows := grown_grows g op inputs ty place mark
    rcases grown_nodes.mp at_ with old | ⟨-, rfl⟩
    · exact sparse.needed_grows located owned grows old moves
    · obtain ⟨-, l, here, stuck⟩ := transfer moves
      exact ⟨l, here, fun x reads => (stuck x reads).2.grows located owned grows (stuck x reads).1⟩
  nodes := by
    rw [List.length_append, Array.size_push]
    exact Nat.succ_le_succ sparse.nodes
  transfers := by
    have counted := sparse.transfers
    rw [transferCount, Array.toList_push, List.countP_append, List.countP_append, List.countP_singleton,
      List.countP_singleton]
    refine Nat.add_le_add counted ?_
    by_cases moves : op.isTransfer
    · rw [if_pos moves, if_pos (transfer moves).1]
    · rw [if_neg moves]
      exact Nat.zero_le _

end Sparse

end Graph

namespace Transfers

variable {c : Context} {p q : Program} {r r' : Rebuild}

/-- A round so far. -/
structure Thins (c : Context) (p : Program) (done : List Node) (r : Rebuild) : Prop where
  kept : Keeps p r
  sparse : r.graph.Sparse c done

theorem Thins.copying (located : p.Located) (done : List Node) : p.Copying (Thins c p done) :=
  fun ⟨kept, sparse⟩ unread atV isLeaf => ⟨Transfers.copying located kept unread atV isLeaf,
    sparse.pushLeaf kept.sites.located kept.sites.owned _⟩

/-- However a value is had, every transfer is one that was due. -/
theorem Had.sparse {op : Op} {x w : VarId} {l : Location} (had : Had c op r x l w r') (kept : Keeps p r)
    {done : List Node} (sparse : r.graph.Sparse c done) {n : Node} (same : n.op = op) (moves : op.isTransfer)
    (inRange : x < r.graph.vars.size) : r'.graph.Sparse c (done ++ [n]) := by
  cases had with
  | known => exact sparse.skipped n
  | around outcome =>
    cases outcome with
    | here => exact sparse.skipped n
    | back => exact sparse.skipped n
    | @turned op w _ ty _ turns =>
      exact sparse.grown kept.sites.located kept.sites.owned
        (fun moves' => absurd moves' (Op.computes_layout turns.layout)) ty none
  | @added ty _ stuck =>
    refine sparse.grown kept.sites.located kept.sites.owned (fun _ => ⟨same ▸ moves, l, rfl, fun y reads => ?_⟩) ty none
    rw [List.mem_singleton.mp reads]
    exact ⟨inRange, stuck⟩

theorem step_sparse (located : p.Located) {done : List Node} (thins : Thins c p done r) {n : Node}
    (live : n ∈ p.liveNodes) : (step c p n).Meets r (fun _ => True) fun _ r' => r'.graph.Sparse c (done ++ [n]) := by
  obtain ⟨i, at_⟩ := Program.live_at live
  obtain ⟨l, here, -, admits⟩ := located.graph.node at_
  refine (step_outcome (Thins.copying located done) thins n).mono ?_
  rintro _ r' ⟨r₁, ⟨kept, sparse⟩, result⟩
  cases result with
  | @copied args ty stands =>
    refine sparse.grown kept.sites.located kept.sites.owned (fun moves => ?_) ty n.inPlace
    obtain ⟨-, -, v, from_, single, -, -⟩ := admits.moves moves
    rcases stands moves with none | none
    · cases here.symm.trans none
    · cases single.symm.trans none
  | @moved dest v x w rest r₂ moves place inputs image had =>
    obtain ⟨from_, -, there⟩ := kept.stays v x image
    exact had.sparse kept sparse rfl moves (Graph.lt_of_placeOf there)

/-- The first half of a round. -/
theorem rebuild_thins (located : p.Located) (built : p.rebuild (step c p) = .ok q) :
    q.Located ∧ q.graph.Sparse c p.liveNodes := by
  have each : ∀ {before after : List Node} {n : Node} {r : Rebuild}, p.liveNodes = before ++ n :: after →
      Thins c p before r → (step c p n).Meets r (fun _ => True) fun _ r' => Thins c p (before ++ [n]) r' := by
    intro before after n r split thins
    have live : n ∈ p.liveNodes := by simp [split]
    exact ((step_located located thins.kept live).and (step_sparse located thins live)).mono fun _ _ met =>
      ⟨met.1, met.2⟩
  obtain ⟨r, ⟨kept, sparse⟩, graph, inputs, -⟩ := Program.rebuild_keeps (Thins c p)
    ⟨keeps_start p, .empty _ c⟩ (Thins.copying located) each built
  exact ⟨kept.sites.program graph inputs, graph ▸ sparse⟩

end Transfers

namespace Program

variable {c : Context} {p q : Program} {image : VarId → Option VarId}

/-- Nothing is left to do for the removal of transfers: none can be avoided, no value is moved to one place twice, and
every operation is needed. -/
structure Settled (p : Program) (c : Context) : Prop where
  needed : ∀ n ∈ p.graph.nodes.toList, n.op.isTransfer →
    ∃ l, n.place = some l ∧ ∀ x ∈ n.inputs, p.graph.Unavoidable c x l
  once : ∀ {i j : NodeId} {m n : Node}, p.graph.nodes[i]? = some m → p.graph.nodes[j]? = some n → m.op.isTransfer →
    n.op.isTransfer → m.inputs = n.inputs → m.place = n.place → i = j
  live : p.graph.nodes.toList = p.liveNodes

/-- What is left after pruning computes what it is a copy of. -/
theorem Stripped.traces {d d' : Discipline} (stripped : p.Stripped q image) (valid : p.Valid d) (valid' : q.Valid d') :
    p.graph.Traces q.graph image where
  typed at_ := by
    obtain ⟨x, y, atV, atW, same, -⟩ := stripped.agrees.vars at_
    exact ⟨x, y, atV, atW, same⟩
  produced {v w m} at_ produced := by
    obtain ⟨atM, rfl⟩ := valid'.graph.of_producer? produced
    obtain ⟨n, live, copied⟩ := partner_of stripped.agrees.nodes (stripped.live ▸ Graph.Sound.mem_toList atM)
    obtain rfl := stripped.agrees.injective copied.output at_
    exact ⟨n, valid.graph.producer?_output (valid.graph.live_mem live), copied.op, copied.inputs⟩

/-- Pruning a program without needless transfers settles it. -/
theorem Stripped.settled {d d' : Discipline} (stripped : p.Stripped q image) (valid : p.Valid d) (valid' : q.Valid d')
    (located : q.Located) {done : List Node} (sparse : p.graph.Sparse c done) : q.Settled c where
  needed m member moves := by
    rw [stripped.live] at member
    obtain ⟨n, live, copied⟩ := partner_of stripped.agrees.nodes member
    obtain ⟨l, here, stuck⟩ := sparse.needed (valid.graph.live_mem live) (copied.op ▸ moves)
    refine ⟨l, copied.place.trans here, fun x reads => ?_⟩
    obtain ⟨v, readsV, image⟩ := partner_of copied.inputs reads
    exact (stuck v readsV).traced (stripped.traces valid valid') image
  once := located.graph.once
  live := stripped.live

/-- Pruning adds neither operations nor transfers. -/
theorem Stripped.counts (stripped : p.Stripped q image) :
    q.nodeCount ≤ p.nodeCount ∧ q.transferCount ≤ p.transferCount := by
  have sublist : p.liveNodes.Sublist p.graph.nodes.toList := Graph.needed_sublist _ _
  have same : q.graph.nodes.toList.countP (fun n => n.op.isTransfer) = p.liveNodes.countP fun n => n.op.isTransfer := by
    rw [stripped.live]
    have pairs := stripped.agrees.nodes
    generalize p.liveNodes = ns, q.liveNodes = ms at pairs
    induction pairs with
    | nil => rfl
    | cons copied _ ih => rw [List.countP_cons, List.countP_cons, ih, copied.op]
  constructor
  · rw [nodeCount, nodeCount, ← Array.length_toList, ← Array.length_toList, stripped.live,
      ← stripped.agrees.nodes.length_eq]
    exact sublist.length_le
  · rw [transferCount, transferCount, Graph.transferCount, Graph.transferCount, same]
    exact sublist.countP_le

end Program

namespace Transfers

variable {c : Context} {p q : Program}

/-- A round settles a program that is valid and has every value where it is read. -/
theorem sweep_settles {stores : Cell → Prop} (valid : p.Valid (.storing stores)) (located : p.Located)
    (swept : sweep c p = .ok q) : q.Valid (.storing stores) ∧ q.Located ∧ q.Settled c ∧ q.prune = .ok q ∧
      q.nodeCount ≤ p.nodeCount ∧ q.transferCount ≤ p.transferCount := by
  obtain ⟨middle, built, pruned⟩ := bind_eq_ok.mp swept
  obtain ⟨located₁, sparse⟩ := rebuild_thins located built
  have tabled : p.Tabled c True := fun _ _ _ _ => .inr trivial
  have rebuilt := rebuild_meets (sheds_storing stores) valid tabled {} [] #[]
  rw [built] at rebuilt
  obtain ⟨_, image, again, valid', stripped⟩ := Program.prune_stripped rebuilt.valid (sheds_storing stores).congruent
  obtain rfl := Except.ok.inj (pruned.symm.trans again)
  obtain ⟨_, twice, rfl⟩ := stripped.agrees.prune.of_ok pruned
  have located' := located₁.prune pruned
  obtain ⟨nodes, transfers⟩ := stripped.counts
  refine ⟨valid', located', stripped.settled rebuilt.valid valid' located' sparse, twice, nodes.trans ?_,
    transfers.trans ?_⟩
  · refine sparse.nodes.trans ?_
    rw [Program.nodeCount, ← Array.length_toList]
    exact (Graph.needed_sublist _ _).length_le
  · exact sparse.transfers.trans (Graph.needed_sublist _ _).countP_le

end Transfers

end TensorGraph
