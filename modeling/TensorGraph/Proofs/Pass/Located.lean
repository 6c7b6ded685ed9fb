import TensorGraph.Proofs.Graph.Live
import TensorGraph.Proofs.Pass.Outcome
import TensorGraph.Proofs.Pass.Pipeline

/-! Placement puts every value where it is read, whatever program it is given, and the passes after it keep it so.
Where a value lives is in the type of its variable only, which every pass makes anew. -/
namespace TensorGraph

open Checked Rebuilding

namespace Program

/-- A program in which every value is where it is read. The caller binds leaves. -/
structure Located (p : Program) : Prop where
  graph : p.graph.Located
  owned : p.graph.Owned
  inputs : ∀ v ∈ p.inputs, ∃ x, p.graph.vars[v]? = some x ∧ x.isLeaf

/-- Every leaf is on the host. -/
def Hosted (p : Program) : Prop := ∀ {v : VarId} {x : Var}, p.graph.vars[v]? = some x → x.isLeaf →
  x.ty.place = some .host

/-- No operation computes a leaf. -/
def Computed (p : Program) : Prop := ∀ n ∈ p.graph.nodes.toList, ∀ x : Var, p.graph.vars[n.output]? = some x →
  ¬ x.isLeaf

variable {p : Program}

theorem Located.hosted (located : p.Located) : p.Hosted := fun {v x} atV isLeaf => by
  rw [← Graph.placeOf_eq atV]
  exact located.graph.leaf atV isLeaf

theorem computed_of_owned (owned : p.graph.Owned) : p.Computed := by
  intro n member x atOutput
  obtain ⟨i, at_⟩ := List.mem_iff_getElem?.mp member
  rw [Array.getElem?_toList] at at_
  exact owned.notLeaf at_ atOutput

/-- An accepted program has no operation that computes a leaf. -/
theorem computed_of_validate (accepted : p.validate = .ok ()) : p.Computed := by
  obtain ⟨⟨⟩, graph, -⟩ := bind_eq_ok.mp accepted
  intro n member x atOutput isLeaf
  obtain ⟨⟨⟩, -, output⟩ := bind_eq_ok.mp (forM_eq_ok.mp graph n member)
  rw [Graph.var_eq_ok.mpr atOutput, ok_bind] at output
  cases origin : x.origin with
  | output i => simp [Var.isLeaf, origin] at isLeaf
  | _ => simp [origin] at output

theorem live_subset : p.liveNodes ⊆ p.graph.nodes.toList := (Graph.needed_sublist _ _).subset

theorem live_at {n : Node} (live : n ∈ p.liveNodes) : ∃ i : NodeId, p.graph.nodes[i]? = some n := by
  obtain ⟨i, at_⟩ := List.mem_iff_getElem?.mp (live_subset live)
  rw [Array.getElem?_toList] at at_
  exact ⟨i, at_⟩

end Program

namespace Rebuild

variable {r : Rebuild} {p : Program}

/-- The new graph has every value where it is read, and has the leaves of the old one. -/
structure Sites (r : Rebuild) (p : Program) : Prop where
  located : r.graph.Located
  owned : r.graph.Owned
  leaf : ∀ {v w : VarId} {x : Var}, r.image v = some w → p.graph.vars[v]? = some x → x.isLeaf →
    r.graph.vars[w]? = some x

namespace Sites

theorem start (p : Program) : (Rebuild.start p).Sites p where
  located := .empty _
  owned := .empty _
  leaf at_ := by cases at_

theorem copied (sites : r.Sites p) (hosted : p.Hosted) {v : VarId} {x : Var}
    (atV : p.graph.vars[v]? = some x) (isLeaf : x.isLeaf) : (r.copied v x).Sites p where
  located := sites.located.pushLeaf (hosted atV isLeaf)
  owned := sites.owned.pushLeaf isLeaf
  leaf {u w y} atU atP leafY := by
    refine Graph.pushLeaf_vars.mpr ?_
    by_cases same : u = v
    · subst same
      obtain rfl : x = y := Option.some.inj (atV.symm.trans atP)
      exact .inr ⟨by simpa [Rebuild.copied, eq_comm] using atU, rfl⟩
    · exact .inl (sites.leaf (by simpa [Rebuild.copied, same] using atU) atP leafY)

theorem bound (sites : r.Sites p) {v : VarId} (computed : ∀ x : Var, p.graph.vars[v]? = some x → ¬ x.isLeaf)
    (w : VarId) : Sites { r with image := fun u => if u = v then some w else r.image u } p where
  located := sites.located
  owned := sites.owned
  leaf {u z y} atU atP leafY := by
    have other : u ≠ v := by
      rintro rfl
      exact computed y atP leafY
    exact sites.leaf (by simpa [other] using atU) atP leafY

theorem grown (sites : r.Sites p) {op : Op} {inputs : List VarId} {l : Location} {mark : Option Nat} (ty : Ty)
    (admits : r.graph.Admits op inputs l mark)
    (fresh : op.isTransfer → ∀ {i : NodeId} {m : Node}, r.graph.nodes[i]? = some m → m.op.isTransfer →
      m.inputs = inputs → m.place ≠ some l) :
    Sites { r with graph := r.graph.grown op inputs ty (some l) mark } p where
  located := sites.located.grown admits fresh
  owned := sites.owned.grown
  leaf atU atP isLeaf := (Graph.grown_grows ..).vars (sites.leaf atU atP isLeaf)

end Sites

/-- The program that a rebuild makes of its graph. -/
theorem Sites.program (sites : r.Sites p) {q : Program} (graph : q.graph = r.graph)
    (inputs : List.Forall₂ (fun v w => (∃ x, p.graph.vars[v]? = some x ∧ x.isLeaf) ∧ r.image v = some w)
      p.inputs q.inputs) : q.Located where
  graph := graph ▸ sites.located
  owned := graph ▸ sites.owned
  inputs w member := by
    obtain ⟨v, -, ⟨x, atV, isLeaf⟩, image⟩ := partner_of inputs member
    exact ⟨x, by rw [graph]; exact sites.leaf image atV isLeaf, isLeaf⟩

/-- Images are where the variables are. -/
def Stays (r : Rebuild) (p : Program) : Prop := ∀ v w, r.image v = some w →
  ∃ l, p.graph.placeOf v = some l ∧ r.graph.placeOf w = some l

namespace Stays

theorem copied (stays : r.Stays p) (located : p.Located) {v : VarId} {x : Var} (atV : p.graph.vars[v]? = some x)
    (isLeaf : x.isLeaf) : (r.copied v x).Stays p := fun u w atU => by
  by_cases same : u = v
  · subst same
    obtain rfl : r.graph.vars.size = w := by simpa [Rebuild.copied] using atU
    refine ⟨.host, located.graph.leaf atV isLeaf, ?_⟩
    rw [Rebuild.copied, Graph.placeOf_eq (Graph.pushLeaf_vars.mpr (.inr ⟨rfl, rfl⟩))]
    exact located.hosted atV isLeaf
  · obtain ⟨l, place, there⟩ := stays u w (by simpa [Rebuild.copied, same] using atU)
    exact ⟨l, place, (Graph.pushLeaf_grows r.graph x).placeOf there⟩

theorem grown (stays : r.Stays p) {g : Graph} (grows : r.graph.Grows g) : Stays { r with graph := g } p :=
  fun v w image => by
    obtain ⟨l, place, there⟩ := stays v w image
    exact ⟨l, place, grows.placeOf there⟩

theorem bound (stays : r.Stays p) {v w : VarId} {l : Location} (place : p.graph.placeOf v = some l)
    (there : r.graph.placeOf w = some l) :
    Stays { r with image := fun u => if u = v then some w else r.image u } p := fun u z atU => by
  by_cases same : u = v
  · obtain rfl : w = z := by simpa [same] using atU
    exact ⟨l, same ▸ place, there⟩
  · exact stays u z (by simpa [same] using atU)

/-- The images of operands are where the operands are. -/
theorem places (stays : r.Stays p) {vs ws : List VarId}
    (images : List.Forall₂ (fun v w => r.image v = some w) vs ws) {place : Place}
    (there : ∀ v ∈ vs, p.graph.placeOf v = place) : ∀ w ∈ ws, r.graph.placeOf w = place := by
  intro w member
  obtain ⟨v, reads, image⟩ := partner_of images member
  obtain ⟨l, here, place⟩ := stays v w image
  rw [place, ← here, there v reads]

end Stays

end Rebuild

/-! A pass that adds transfers notes where they lead. -/

/-- Results that are noted are where they should be, and every transfer is noted. -/
structure Graph.Noted (g : Graph) (known : List ((Op × List VarId) × VarId)) : Prop where
  leads : ∀ {l : Location} {x w : VarId}, ((Op.transferTo l, [x]), w) ∈ known → g.placeOf w = some l
  each : ∀ {i : NodeId} {n : Node}, g.nodes[i]? = some n → n.op.isTransfer →
    ∃ l x w, n.place = some l ∧ n.inputs = [x] ∧ ((Op.transferTo l, [x]), w) ∈ known

namespace Graph.Noted

variable {g : Graph} {known : List ((Op × List VarId) × VarId)} {l : Location}

theorem empty (float : Kind) : (Graph.empty float).Noted [] where
  leads member := by cases member
  each at_ := by simp [Graph.empty] at at_

theorem pushLeaf (noted : g.Noted known) (x : Var) : (g.pushLeaf x).1.Noted known where
  leads member := (pushLeaf_grows g x).placeOf (noted.leads member)
  each := noted.each

theorem grown (noted : g.Noted known) {op : Op} (computes : ¬ op.isTransfer) (inputs : List VarId) (ty : Ty)
    (place : Place) (mark : Option Nat) : (g.grown op inputs ty place mark).Noted known where
  leads member := (grown_grows ..).placeOf (noted.leads member)
  each {i n} at_ moves := by
    rcases grown_nodes.mp at_ with old | ⟨-, rfl⟩
    · exact noted.each old moves
    · exact absurd moves computes

theorem note (noted : g.Noted known) (x : VarId) {w : VarId} (place : g.placeOf w = some l) :
    g.Noted (((.transferTo l, [x]), w) :: known) where
  leads {l' y z} member := by
    rcases List.mem_cons.mp member with new | old
    · simp only [Prod.mk.injEq, List.cons.injEq] at new
      obtain ⟨⟨same, -⟩, rfl⟩ := new
      rw [place, Placement.transferTo_inj same]
    · exact noted.leads old
  each {i n} at_ moves := by
    obtain ⟨l', y, z, here, single, member⟩ := noted.each at_ moves
    exact ⟨l', y, z, here, single, List.mem_cons_of_mem _ member⟩

/-- A transfer that is added is noted. -/
theorem transferred (noted : g.Noted known) (op : Op) (x : VarId) (ty : Ty) (mark : Option Nat) :
    (g.grown op [x] ty (some l) mark).Noted (((.transferTo l, [x]), g.vars.size) :: known) where
  leads {l' y z} member := by
    rcases List.mem_cons.mp member with new | old
    · simp only [Prod.mk.injEq, List.cons.injEq] at new
      obtain ⟨⟨same, -⟩, rfl⟩ := new
      rw [placeOf_grown, Placement.transferTo_inj same]
    · exact (grown_grows ..).placeOf (noted.leads old)
  each {i n} at_ moves := by
    rcases grown_nodes.mp at_ with old | ⟨-, rfl⟩
    · obtain ⟨l', y, z, here, single, member⟩ := noted.each old moves
      exact ⟨l', y, z, here, single, List.mem_cons_of_mem _ member⟩
    · exact ⟨l, x, g.vars.size, rfl, rfl, by simp⟩

/-- There is no transfer that is not noted. -/
theorem fresh (noted : g.Noted known) {x : VarId} (unknown : ∀ w, ((Op.transferTo l, [x]), w) ∉ known) {i : NodeId}
    {m : Node} (at_ : g.nodes[i]? = some m) (moves : m.op.isTransfer) (inputs : m.inputs = [x]) :
    m.place ≠ some l := by
  intro there
  obtain ⟨l', y, w, here, single, member⟩ := noted.each at_ moves
  obtain rfl : l = l' := Option.some.inj (there.symm.trans here)
  obtain rfl : x = y := List.singleton_injective (inputs.symm.trans single)
  exact unknown w member

end Graph.Noted

/-- Every variable of a graph whose values are where they are read has a place. -/
theorem Graph.Located.placed {g : Graph} (located : g.Located) (owned : g.Owned) {v : VarId} {x : Var}
    (atV : g.vars[v]? = some x) : ∃ l, g.placeOf v = some l := by
  by_cases isLeaf : x.isLeaf
  · exact ⟨.host, located.leaf atV isLeaf⟩
  · cases origin : x.origin with
    | output i =>
      obtain ⟨n, at_, rfl⟩ := owned.produced atV origin
      obtain ⟨l, -, output, -⟩ := located.node at_
      exact ⟨l, output⟩
    | _ => simp [Var.isLeaf, origin] at isLeaf

namespace Placement

variable {c : Context} {p : Program} {r : Rebuild}

/-- What placement keeps: its graph has every value where it is read, and its transfers are noted. -/
def Keeps (p : Program) (r : Rebuild) : Prop := r.Sites p ∧ r.graph.Noted r.known

theorem copying (hosted : p.Hosted) : p.Copying (Keeps p) :=
  fun ⟨sites, noted⟩ _ atV isLeaf => ⟨sites.copied hosted atV isLeaf, noted.pushLeaf _⟩

/-- How a value is had at `dest`: it is there, it was moved there before, or a transfer is added and noted. -/
inductive Moved (r : Rebuild) (dest : Location) (v : VarId) : VarId → Rebuild → Prop where
  | here {x : Var} (atV : r.graph.vars[v]? = some x) (here : (r.graph.placeOf v).getD .host = dest) : Moved r dest v v r
  | known {w : VarId} (member : ((Op.transferTo dest, [v]), w) ∈ r.known) : Moved r dest v w r
  | added {x : Var} {ty : Ty} (atV : r.graph.vars[v]? = some x) (away : (r.graph.placeOf v).getD .host ≠ dest)
      (unknown : ∀ w, ((Op.transferTo dest, [v]), w) ∉ r.known) : Moved r dest v r.graph.vars.size
        ⟨r.graph.grown (.transferTo dest) [v] ty (some dest) none, r.image,
          ((.transferTo dest, [v]), r.graph.vars.size) :: r.known⟩

theorem moved_outcome (r : Rebuild) (dest : Location) (v : VarId) :
    (moved dest v).Meets r (fun _ => True) (Moved r dest v) := by
  unfold moved
  rw [meets_bind]
  refine (Rebuild.place_spec v fun _ _ => trivial).mono ?_
  rintro _ r₀ ⟨rfl, rfl, x, atV⟩
  by_cases here : (r₀.graph.placeOf v).getD .host = dest
  · rw [if_pos here]
    exact .here atV here
  rw [if_neg here, meets_bind]
  refine (Rebuild.known?_spec (.transferTo dest) [v]).mono ?_
  rintro found r₁ ⟨rfl, known, unknown⟩
  cases found with
  | some w => exact .known (known w rfl)
  | none =>
    simp only
    rw [meets_bind]
    refine (Rebuild.emit_spec (.transferTo dest) [v] (some dest) none).mono ?_
    rintro _ _ ⟨rfl, ty, rfl⟩
    exact .added atV here (unknown rfl)

theorem Moved.grows {dest : Location} {v w : VarId} {r' : Rebuild} (moved : Moved r dest v w r') : r.Grows r' := by
  cases moved with
  | here => exact .refl r
  | known => exact .refl r
  | added => exact ⟨Graph.grown_grows .., id⟩

/-- A value can be had at any place. It is moved there once. -/
theorem Moved.located {dest : Location} {v w : VarId} {r' : Rebuild} (moved : Moved r dest v w r') (kept : Keeps p r) :
    Keeps p r' ∧ r'.graph.placeOf w = some dest := by
  obtain ⟨sites, noted⟩ := kept
  cases moved with
  | here atV here =>
    obtain ⟨l, place⟩ := sites.located.placed sites.owned atV
    rw [place] at here
    exact ⟨⟨sites, noted⟩, place.trans (congrArg some here)⟩
  | known member => exact ⟨⟨sites, noted⟩, noted.leads member⟩
  | @added _ ty atV away unknown =>
    obtain ⟨l, place⟩ := sites.located.placed sites.owned atV
    rw [place] at away
    have admits : r.graph.Admits (.transferTo dest) [v] dest none :=
      ⟨fun computes => absurd (isTransfer_transferTo dest) computes, fun _ => ⟨rfl, rfl, v, l, rfl, place, away⟩⟩
    have grown := sites.grown ty admits fun _ => noted.fresh unknown
    exact ⟨⟨⟨grown.located, grown.owned, grown.leaf⟩, noted.transferred (.transferTo dest) v ty none⟩,
      Graph.placeOf_grown⟩

theorem movedAll_located (hosted : p.Hosted) (kept : Keeps p r) (dest : Location) (vs : List VarId) :
    (vs.mapM fun v => do moved dest (← Rebuild.read p v)).Meets r (fun _ => True) fun ws r' =>
      Keeps p r' ∧ ∀ w ∈ ws, r'.graph.placeOf w = some dest := by
  refine meets_mapM (fun _ ws r' => Keeps p r' ∧ ∀ w ∈ ws, r'.graph.placeOf w = some dest) vs
    ⟨kept, by simp⟩ ?_ fun _ _ held => held
  rintro before v after ws r₁ - ⟨kept₁, places⟩
  rw [meets_bind]
  refine (Rebuild.read_keeps (copying hosted) kept₁ v).mono ?_
  rintro w r₂ ⟨kept₂, grows₂, -⟩
  refine (moved_outcome r₂ dest w).mono fun w' r₃ moved => ?_
  obtain ⟨kept₃, place⟩ := moved.located kept₂
  refine ⟨kept₃, List.forall_mem_append.mpr ⟨fun u member => ?_, by simpa using place⟩⟩
  exact moved.grows.graph.placeOf (grows₂.graph.placeOf (places u member))

theorem step_located (hosted : p.Hosted) (kept : Keeps p r) {n : Node}
    (computed : ∀ x : Var, p.graph.vars[n.output]? = some x → ¬ x.isLeaf) :
    (step c p n).Meets r (fun _ => True) fun _ r' => Keeps p r' := by
  unfold step
  cases leads : destination? c.target n.op with
  | some dest =>
    cases n.inputs with
    | nil => trivial
    | cons x rest =>
      simp only
      rw [meets_bind]
      refine (Rebuild.read_keeps (copying hosted) kept x).mono ?_
      rintro w r₁ ⟨kept₁, -, -⟩
      rw [meets_bind]
      refine (moved_outcome r₁ dest w).mono fun w' r₂ moved => ?_
      obtain ⟨⟨sites, noted⟩, -⟩ := moved.located kept₁
      exact ⟨sites.bound computed w', noted⟩
  | none =>
    simp only
    rw [meets_bind, meets_lift]
    cases choose c p.graph n with
    | error e => trivial
    | ok place =>
      simp only
      rw [meets_bind]
      refine (movedAll_located hosted kept place n.inputs).mono ?_
      rintro ws r₁ ⟨⟨sites, noted⟩, places⟩
      rw [meets_bind]
      refine (Rebuild.emit_spec n.op ws (some place) n.inPlace).mono ?_
      rintro _ _ ⟨rfl, ty, rfl⟩
      have computes := destination?_none leads
      have admits : r₁.graph.Admits n.op ws place n.inPlace :=
        ⟨fun _ => places, fun moves => absurd moves computes⟩
      have grown := sites.grown ty admits fun moves => absurd moves computes
      exact ⟨grown.bound computed _, noted.grown computes ..⟩

/-- Placement puts every value where it is read. -/
theorem run_located {q : Program} (computed : p.Computed) (ran : run c p = .ok q) : q.Located := by
  have hostedLeaves : (hostLeaves p).Hosted := fun {v y} atV isLeaf => by
    obtain ⟨x, -, rfl⟩ := hostLeaves_some atV
    have leafX : x.isLeaf := by simpa [Var.isLeaf, hosted_origin] using isLeaf
    simp [hosted, leafX, Ty.placed]
  have computedLeaves : (hostLeaves p).Computed := fun n member y atOutput isLeaf => by
    obtain ⟨x, atX, rfl⟩ := hostLeaves_some atOutput
    exact computed n member x atX (by simpa [Var.isLeaf, hosted_origin] using isLeaf)
  have start : Keeps (hostLeaves p) (.start (hostLeaves p)) := ⟨.start _, .empty _⟩
  obtain ⟨r, ⟨sites, -⟩, graph, inputs, -⟩ := Program.rebuild_keeps (fun _ => Keeps (hostLeaves p)) start
    (fun _ => copying hostedLeaves) (fun {before after n r} split kept => step_located hostedLeaves kept
      (computedLeaves n (Program.live_subset (by simp [split])))) ran
  exact sites.program graph inputs

end Placement

/-- The canonical form of a program has no operation that computes a leaf. -/
theorem Canonical.run_computed {c : Context} {p q : Program} (ran : Canonical.run c p = .ok q) : q.Computed := by
  have copying : p.Copying fun r => r.graph.Owned := fun owned _ _ isLeaf => owned.pushLeaf isLeaf
  have each : ∀ {r : Rebuild} {n : Node}, r.graph.Owned →
      (Canonical.step c p n).Meets r (fun _ => True) fun _ r' => r'.graph.Owned := by
    intro r n owned
    refine (Canonical.step_outcome copying owned n).mono ?_
    rintro _ r' ⟨args, r₁, owned₁, -, -, outcome⟩
    cases outcome with
    | folded => exact owned₁.pushLeaf rfl
    | added => exact owned₁.grown
    | negated => exact owned₁
    | shared => exact owned₁
  obtain ⟨r, owned, graph, -⟩ := Program.rebuild_keeps (fun _ r => r.graph.Owned) (.empty _)
    (fun _ => copying) (fun _ => each) ran
  exact Program.computed_of_owned (graph ▸ owned)

namespace Transfers

variable {c : Context} {p : Program} {r : Rebuild}

/-- What the removal of transfers keeps: what placement keeps, and images are where the variables are. -/
structure Keeps (p : Program) (r : Rebuild) : Prop where
  sites : r.Sites p
  noted : r.graph.Noted r.known
  stays : r.Stays p

theorem keeps_start (p : Program) : Keeps p (.start p) where
  sites := .start p
  noted := .empty _
  stays _ _ at_ := by cases at_

theorem copying (located : p.Located) : p.Copying (Keeps p) := fun kept _ atV isLeaf =>
  ⟨kept.sites.copied located.hosted atV isLeaf, kept.noted.pushLeaf _, kept.stays.copied located atV isLeaf⟩

/-- What computes may be added where its operands are. -/
theorem Keeps.grown (kept : Keeps p r) {op : Op} (computes : ¬ op.isTransfer) {inputs : List VarId} {l : Location}
    (there : ∀ w ∈ inputs, r.graph.placeOf w = some l) (ty : Ty) (mark : Option Nat) :
    Keeps p { r with graph := r.graph.grown op inputs ty (some l) mark } where
  sites := kept.sites.grown ty ⟨fun _ => there, fun moves => absurd moves computes⟩ fun moves => absurd moves computes
  noted := kept.noted.grown computes ..
  stays := kept.stays.grown (Graph.grown_grows ..)

/-- A variable is bound to one at the same place. -/
theorem Keeps.bound (kept : Keeps p r) {v w : VarId} {l : Location}
    (computed : ∀ x : Var, p.graph.vars[v]? = some x → ¬ x.isLeaf) (place : p.graph.placeOf v = some l)
    (there : r.graph.placeOf w = some l) :
    Keeps p { r with image := fun u => if u = v then some w else r.image u } :=
  ⟨kept.sites.bound computed w, kept.noted, kept.stays.bound place there⟩

/-- A value is noted as what a transfer gives. -/
theorem Keeps.note (kept : Keeps p r) {l : Location} (x : VarId) {w : VarId} (there : r.graph.placeOf w = some l) :
    Keeps p { r with known := ((.transferTo l, [x]), w) :: r.known } :=
  ⟨⟨kept.sites.located, kept.sites.owned, kept.sites.leaf⟩, kept.noted.note x there, kept.stays⟩

/-- However a value is had where a transfer leads, it is there. -/
theorem Had.located {op : Op} {x w : VarId} {l from_ : Location} {r' : Rebuild} (had : Had c op r x l w r')
    (kept : Keeps p r) (leads : op = .transferTo l) (here : r.graph.placeOf x = some from_) :
    Keeps p { r' with known := ((.transferTo l, [x]), w) :: r'.known } ∧ r'.graph.placeOf w = some l := by
  cases had with
  | known member =>
    have there := kept.noted.leads member
    exact ⟨kept.note x there, there⟩
  | around outcome =>
    cases outcome with
    | here there => exact ⟨kept.note x there, there⟩
    | back _ there => exact ⟨kept.note x there, there⟩
    | @turned op w _ ty _ turns there =>
      have grown := kept.grown (Op.computes_layout turns.layout) (List.forall_mem_singleton.mpr there) ty none
      exact ⟨grown.note x Graph.placeOf_grown, Graph.placeOf_grown⟩
  | @added ty unknown stuck =>
    have elsewhere : from_ ≠ l := fun same => stuck.away (same ▸ here)
    have grown := kept.sites.grown ty
      ⟨fun computes => absurd (leads ▸ Placement.isTransfer_transferTo l) computes,
        fun _ => ⟨leads, rfl, x, from_, rfl, here, elsewhere⟩⟩
      fun _ => kept.noted.fresh unknown
    exact ⟨⟨⟨grown.located, grown.owned, grown.leaf⟩, kept.noted.transferred op x ty none,
      kept.stays.grown (Graph.grown_grows ..)⟩, Graph.placeOf_grown⟩

theorem step_located (located : p.Located) (kept : Keeps p r) {n : Node} (live : n ∈ p.liveNodes) :
    (step c p n).Meets r (fun _ => True) fun _ r' => Keeps p r' := by
  obtain ⟨i, at_⟩ := Program.live_at live
  obtain ⟨l, here, output, admits⟩ := located.graph.node at_
  have computed : ∀ x : Var, p.graph.vars[n.output]? = some x → ¬ x.isLeaf := fun x => located.owned.notLeaf at_
  refine (step_outcome (copying located) kept n).mono ?_
  rintro _ r' ⟨r₁, kept₁, result⟩
  cases result with
  | @copied args ty stands images =>
    have computes : ¬ n.op.isTransfer := fun moves => by
      obtain ⟨-, -, v, from_, single, -, -⟩ := admits.moves moves
      rcases stands moves with none | none
      · cases here.symm.trans none
      · cases single.symm.trans none
    have there := kept₁.stays.places images (admits.computes computes)
    rw [here]
    exact (kept₁.grown computes there ty n.inPlace).bound computed output Graph.placeOf_grown
  | @moved dest v x w rest r₂ moves place inputs image had =>
    obtain rfl : l = dest := Option.some.inj (here.symm.trans place)
    obtain ⟨leads, -, -⟩ := admits.moves moves
    obtain ⟨from_, -, there⟩ := kept₁.stays v x image
    obtain ⟨kept₂, there⟩ := had.located kept₁ leads there
    exact kept₂.bound computed output there

end Transfers

end TensorGraph
