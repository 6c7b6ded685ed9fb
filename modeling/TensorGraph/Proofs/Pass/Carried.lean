import TensorGraph.Proofs.Pass.Located
import TensorGraph.Proofs.Pass.Transfers

/-! Passes that copy transfers leave every value where it is read, and so does the pipeline once placement ran.
Copies of different variables are different, so no two copied transfers move one value to one place. -/
namespace TensorGraph

open Checked Rebuilding

namespace Rebuild

/-- A rebuild of a program whose values are where they are read, after the operations `done`: images are different
and where the variables are, and a transfer is the copy of one that is done. -/
structure Carries (r : Rebuild) (p : Program) (done : List Node) : Prop where
  sites : r.Sites p
  stays : r.Stays p
  injective : ∀ {u v w : VarId}, r.image u = some w → r.image v = some w → u = v
  domain : ∀ {v w : VarId}, r.image v = some w →
    (∃ x, p.graph.vars[v]? = some x ∧ x.isLeaf) ∨ ∃ n ∈ done, n.output = v
  moved : ∀ {i : NodeId} {m : Node}, r.graph.nodes[i]? = some m → m.op.isTransfer → ∃ n ∈ done, n.op.isTransfer ∧
    n.place = m.place ∧ List.Forall₂ (fun v w => r.image v = some w) n.inputs m.inputs

variable {r : Rebuild} {p : Program} {done : List Node}

namespace Carries

theorem start (p : Program) : (Rebuild.start p).Carries p [] where
  sites := .start p
  stays v w at_ := by cases at_
  injective at_ := by cases at_
  domain at_ := by cases at_
  moved at_ := by simp [Rebuild.start, Graph.empty] at at_

/-- A fresh variable becomes the image of one that had none. -/
theorem injective_bound (carries : r.Carries p done) {v u u' w : VarId}
    (atU : (if u = v then some r.graph.vars.size else r.image u) = some w)
    (atU' : (if u' = v then some r.graph.vars.size else r.image u') = some w) : u = u' := by
  have old : ∀ {x : VarId}, r.image x ≠ some r.graph.vars.size := fun image => by
    obtain ⟨l, -, there⟩ := carries.stays _ _ image
    exact Nat.lt_irrefl _ (Graph.lt_of_placeOf there)
  by_cases first : u = v <;> by_cases second : u' = v
  · rw [first, second]
  · rw [if_pos first] at atU
    rw [if_neg second, ← Option.some.inj atU] at atU'
    exact absurd atU' old
  · rw [if_pos second] at atU'
    rw [if_neg first, ← Option.some.inj atU'] at atU
    exact absurd atU old
  · rw [if_neg first] at atU
    rw [if_neg second] at atU'
    exact carries.injective atU atU'

theorem copied (carries : r.Carries p done) (located : p.Located) {v : VarId} {x : Var} (unread : r.image v = none)
    (atV : p.graph.vars[v]? = some x) (isLeaf : x.isLeaf) : (r.copied v x).Carries p done where
  sites := carries.sites.copied located.hosted atV isLeaf
  stays := carries.stays.copied located atV isLeaf
  injective atU atU' := carries.injective_bound atU atU'
  domain {u w} atU := by
    by_cases same : u = v
    · exact .inl ⟨x, same ▸ atV, isLeaf⟩
    · exact carries.domain (v := u) (w := w) (by simpa [Rebuild.copied, same] using atU)
  moved {i m} at_ moves := by
    obtain ⟨n, member, movesN, place, images⟩ := carries.moved at_ moves
    exact ⟨n, member, movesN, place, images.imp fun _ _ image => (copied_grows unread x).image image⟩

theorem copying (located : p.Located) (done : List Node) : p.Copying fun r => r.Carries p done :=
  fun carries unread atV isLeaf => carries.copied located unread atV isLeaf

theorem skipped (carries : r.Carries p done) (n : Node) : r.Carries p (done ++ [n]) :=
  { carries with
    domain := fun image => (carries.domain image).imp_right fun ⟨m, member, output⟩ =>
      ⟨m, List.mem_append_left _ member, output⟩
    moved := fun at_ moves =>
      let ⟨m, member, movesM, rest⟩ := carries.moved at_ moves
      ⟨m, List.mem_append_left _ member, movesM, rest⟩ }

/-- What stands for an operation of the old program in the new one: its copy, if it is a transfer, else something that
computes from values which are where the operation is. -/
def StandsFor (p : Program) (n : Node) (op : Op) (vs : List VarId) (mark : Option Nat) : Prop :=
  (op = n.op ∧ vs = n.inputs ∧ (n.op.isTransfer → mark = none)) ∨
    (¬ n.op.isTransfer ∧ ¬ op.isTransfer ∧ ∀ v ∈ vs, p.graph.placeOf v = n.place)

variable {before after : List Node} {n : Node} {op : Op} {vs ws : List VarId} {mark : Option Nat}

/-- A copy may be placed where the operation is. -/
theorem admits (carries : r.Carries p done) {l : Location} (known : p.graph.Admits n.op n.inputs l n.inPlace)
    (here : n.place = some l) (stands : StandsFor p n op vs mark)
    (images : List.Forall₂ (fun v w => r.image v = some w) vs ws) : r.graph.Admits op ws l mark := by
  rcases stands with ⟨rfl, rfl, unmarked⟩ | ⟨-, computes, there⟩
  · refine ⟨fun computes => carries.stays.places images (known.computes computes), fun moves => ?_⟩
    obtain ⟨leads, -, v, from_, single, place, elsewhere⟩ := known.moves moves
    rw [single] at images
    obtain ⟨w, ws', image, rest, rfl⟩ := List.forall₂_cons_left_iff.mp images
    cases rest
    obtain ⟨l', here, there⟩ := carries.stays _ _ image
    rw [place] at here
    cases here
    exact ⟨leads, unmarked moves, w, from_, rfl, there, elsewhere⟩
  · exact ⟨fun _ => carries.stays.places images fun v reads => (there v reads).trans here,
      fun moves => absurd moves computes⟩

/-- The next operation has an output of its own. -/
theorem fresh_output (located : p.Located) (split : p.liveNodes = before ++ n :: after) :
    ∀ m ∈ before, m.output ≠ n.output := by
  have distinct : p.liveNodes.Pairwise fun a b => a.output ≠ b.output :=
    located.owned.distinct.sublist (Graph.needed_sublist _ _)
  rw [split] at distinct
  exact fun m member => (List.pairwise_append.mp distinct).2.2 m member n (by simp)

/-- Of the operations that are done, none moves what the next one moves to the same place. -/
theorem unmoved (carries : r.Carries p before) (located : p.Located) (split : p.liveNodes = before ++ n :: after)
    (moves : n.op.isTransfer) (images : List.Forall₂ (fun v w => r.image v = some w) n.inputs ws) {i : NodeId}
    {m : Node} (at_ : r.graph.nodes[i]? = some m) (movesM : m.op.isTransfer) (inputs : m.inputs = ws) :
    m.place ≠ n.place := by
  intro place
  obtain ⟨k, member, movesK, placeK, imagesK⟩ := carries.moved at_ movesM
  rw [inputs] at imagesK
  have unique : Relator.LeftUnique fun v w => r.image v = some w := fun _ _ _ => carries.injective
  have same : k.inputs = n.inputs := List.left_unique_forall₂' unique imagesK images
  obtain ⟨j, atJ⟩ := Program.live_at (p := p) (n := k) (by simp [split, member])
  obtain ⟨j', atJ'⟩ := Program.live_at (p := p) (n := n) (by simp [split])
  obtain rfl := located.graph.once atJ atJ' movesK moves same (placeK.trans place)
  obtain rfl : k = n := Option.some.inj (atJ.symm.trans atJ')
  exact fresh_output located split k member rfl

/-- The output of the next operation has no image yet. -/
theorem unread (carries : r.Carries p before) (located : p.Located) (split : p.liveNodes = before ++ n :: after) :
    r.image n.output = none := by
  obtain ⟨i, at_⟩ := Program.live_at (p := p) (n := n) (by simp [split])
  exact unread_of_domain carries.domain (fun x => located.owned.notLeaf at_) (fresh_output located split)

/-- What stands for the next operation is added, and its result becomes the image of the output. -/
theorem emitted (carries : r.Carries p before) (located : p.Located) (split : p.liveNodes = before ++ n :: after)
    (stands : StandsFor p n op vs mark) (images : List.Forall₂ (fun v w => r.image v = some w) vs ws) :
    (do Rebuild.bind n.output (← Rebuild.emit op ws n.place mark) : Rebuilding Unit).Meets r (fun _ => True)
      fun _ r' => r'.Carries p (before ++ [n]) := by
  obtain ⟨j, atJ⟩ := Program.live_at (p := p) (n := n) (by simp [split])
  obtain ⟨l, here, output, known⟩ := located.graph.node atJ
  rw [meets_bind]
  refine (Rebuild.emit_spec op ws n.place mark).mono ?_
  rintro _ _ ⟨rfl, ty, rfl⟩
  rw [Rebuild.bind, meets_modify, here]
  have grows := Graph.grown_grows r.graph op ws ty (some l) mark
  have kept : ∀ {u z : VarId}, r.image u = some z →
      (if u = n.output then some r.graph.vars.size else r.image u) = some z :=
    image_bound (carries.unread located split) _
  refine ⟨?_, (carries.stays.grown grows).bound output Graph.placeOf_grown, carries.injective_bound,
    fun {u z} atU => ?_, fun {i m} at_ moves => ?_⟩
  · have admits := carries.admits known here stands images
    refine (carries.sites.grown ty admits fun moves i m at_ movesM inputs => ?_).bound
      (fun x => located.owned.notLeaf atJ) _
    rcases stands with ⟨rfl, rfl, -⟩ | ⟨-, computes, -⟩
    · exact here ▸ carries.unmoved located split moves images at_ movesM inputs
    · exact absurd moves computes
  · by_cases same : u = n.output
    · exact .inr ⟨n, by simp, same.symm⟩
    · exact (carries.skipped n).domain (v := u) (w := z) (by simpa [same] using atU)
  · rcases Graph.grown_nodes.mp at_ with old | ⟨-, rfl⟩
    · obtain ⟨k, member, movesK, place, imagesK⟩ := carries.moved old moves
      exact ⟨k, List.mem_append_left _ member, movesK, place, imagesK.imp fun _ _ image => kept image⟩
    · rcases stands with ⟨rfl, rfl, -⟩ | ⟨-, computes, -⟩
      · exact ⟨n, by simp, moves, here, images.imp fun _ _ image => kept image⟩
      · exact absurd moves computes

end Carries

/-- The next operation is copied, with another mark if it computes. -/
theorem Carries.copied_as {before after : List Node} {n : Node} (carries : r.Carries p before) (located : p.Located)
    (split : p.liveNodes = before ++ n :: after) {mark : Option Nat} (unmarked : n.op.isTransfer → mark = none) :
    (do
      let inputs ← Rebuild.readAll p n.inputs
      Rebuild.bind n.output (← Rebuild.emit n.op inputs n.place mark) : Rebuilding Unit).Meets r (fun _ => True)
      fun _ r' => r'.Carries p (before ++ [n]) := by
  rw [meets_bind]
  refine (Rebuild.readAll_keeps (copying located before) carries n.inputs).mono ?_
  rintro ws r₁ ⟨carries₁, -, images⟩
  exact carries₁.emitted located split (.inl ⟨rfl, rfl, unmarked⟩) images

end Rebuild

namespace Program

variable {p q : Program} {step : Node → Rebuilding Unit}

/-- A rebuild that copies transfers leaves every value where it is read. -/
theorem Located.rebuilt (located : p.Located)
    (each : ∀ {before after : List Node} {n : Node} {r : Rebuild}, p.liveNodes = before ++ n :: after →
      r.Carries p before → (step n).Meets r (fun _ => True) fun _ r' => r'.Carries p (before ++ [n]))
    (built : p.rebuild step = .ok q) : q.Located := by
  obtain ⟨r, carries, graph, inputs, -⟩ := rebuild_keeps (fun done r => r.Carries p done) (.start p)
    (Rebuild.Carries.copying located) each built
  exact carries.sites.program graph inputs

/-- A transfer overwrites nothing. -/
theorem Located.unmarked (located : p.Located) {n : Node} (live : n ∈ p.liveNodes) (moves : n.op.isTransfer) :
    n.inPlace = none := by
  obtain ⟨i, at_⟩ := live_at live
  obtain ⟨l, -, -, admits⟩ := located.graph.node at_
  exact (admits.moves moves).2.1

theorem Located.copy (located : p.Located) {before after : List Node} {n : Node} {r : Rebuild}
    (split : p.liveNodes = before ++ n :: after) (carries : r.Carries p before) :
    (Rebuild.copy p n).Meets r (fun _ => True) fun _ r' => r'.Carries p (before ++ [n]) :=
  carries.copied_as located split fun moves => located.unmarked (by simp [split]) moves

theorem Located.prune (located : p.Located) (pruned : p.prune = .ok q) : q.Located :=
  located.rebuilt located.copy pruned

end Program

/-- Marks are on what computes. -/
theorem InPlace.run_located {c : Context} {p q : Program} (located : p.Located) (ran : run c p = .ok q) :
    q.Located := by
  obtain ⟨order, -, built⟩ := bind_eq_ok.mp ran
  refine located.rebuilt (fun {before after n r} split carries => ?_) built
  unfold InPlace.step
  rw [meets_bind, meets_lift]
  cases chosen : target? c p order n with
  | error e => trivial
  | ok mark =>
    refine carries.copied_as located split fun moves => ?_
    simpa [target?, moves, eq_comm] using chosen

namespace Fusion

variable {c : Context} {p q : Program} {absorbed : List VarId} {l : Location}

namespace Tree

theorem load_inputs (t : Tree) (v : VarId) : ∀ u ∈ (t.load v).1.inputs, u ∈ t.inputs ∨ u = v := by
  intro u member
  unfold load at member
  cases known : t.inputs.idxOf? v with
  | none => simpa [known, push] using member
  | some k =>
    rw [known] at member
    cases loaded : t.steps.idxOf? (.load k) with
    | none => exact .inl (by simpa [loaded, push] using member)
    | some i => exact .inl (by simpa [loaded] using member)

theorem graft_inputs {args done done' : List Nat} {steps : List Step} {t t' : Tree}
    (ran : graft args t done steps = .ok (t', done')) : t'.inputs = t.inputs := by
  induction steps generalizing t done with
  | nil =>
    cases ran
    rfl
  | cons step steps ih =>
    cases step with
    | load k =>
      obtain ⟨i, -, rest⟩ := bind_eq_ok.mp ran
      exact ih rest
    | unary f a =>
      obtain ⟨i, -, rest⟩ := bind_eq_ok.mp ran
      exact ih (t := (t.push (.unary f i)).1) rest
    | binary f a b =>
      obtain ⟨i, -, ran⟩ := bind_eq_ok.mp ran
      obtain ⟨j, -, rest⟩ := bind_eq_ok.mp ran
      exact ih (t := (t.push (.binary f i j)).1) rest

theorem apply_inputs {t t' : Tree} {n : Node} {args : List Nat} {i : Nat} (ran : t.apply n args = .ok (t', i)) :
    t'.inputs = t.inputs := by
  unfold apply at ran
  cases op : n.op with
  | unary f =>
    simp only [op] at ran
    obtain ⟨a, -, rest⟩ := bind_eq_ok.mp ran
    cases rest
    rfl
  | binary f =>
    simp only [op] at ran
    obtain ⟨a, -, ran⟩ := bind_eq_ok.mp ran
    obtain ⟨b, -, rest⟩ := bind_eq_ok.mp ran
    cases rest
    rfl
  | fused e =>
    simp only [op] at ran
    obtain ⟨⟨t₁, done⟩, grafted, rest⟩ := bind_eq_ok.mp ran
    cases last : done.getLast? with
    | none => simp [last] at rest
    | some j =>
      simp only [last] at rest
      cases rest
      exact graft_inputs grafted
  | _ => simp [op] at ran

/-- An expression loads what is where its operation is: what it absorbs is there too. -/
theorem expand_located (located : p.Located) (absorbing : Absorbing p.graph absorbed (·.isFusable)) {depth : Nat}
    {n : Node} (known : p.graph.Admits n.op n.inputs l n.inPlace) (fusable : n.op.isFusable) {t t' : Tree} {i : Nat}
    (there : ∀ v ∈ t.inputs, p.graph.placeOf v = some l) (ran : expand p.graph absorbed depth n t = .ok (t', i)) :
    ∀ v ∈ t'.inputs, p.graph.placeOf v = some l := by
  induction depth generalizing n t t' i with
  | zero => cases ran
  | succ depth ih =>
    rw [expand_succ] at ran
    obtain ⟨⟨t₁, args⟩, added, applied⟩ := bind_eq_ok.mp ran
    rw [apply_inputs applied]
    clear ran applied
    have places := known.computes (by cases op : n.op <;> simp_all [Op.isFusable, Op.isTransfer])
    generalize n.inputs = vs at places added
    generalize ([] : List Nat) = before at added
    induction vs generalizing t before with
    | nil =>
      cases added
      exact there
    | cons v vs ihVs =>
      obtain ⟨⟨t₂, j⟩, first, rest⟩ := bind_eq_ok.mp added
      have placeV := places v (by simp)
      refine ihVs ?_ (fun u reads => places u (List.mem_cons_of_mem _ reads)) _ rest
      have loaded : ∀ u ∈ (t.load v).1.inputs, p.graph.placeOf u = some l := by
        intro u member
        rcases load_inputs t v u member with old | rfl
        · exact there u old
        · exact placeV
      unfold operand at first
      cases produced : p.graph.producer? v with
      | none =>
        simp only [produced] at first
        rwa [show t.load v = (t₂, j) from Except.ok.inj first] at loaded
      | some m =>
        simp only [produced] at first
        by_cases inside : absorbed.contains v
        · rw [if_pos inside] at first
          obtain ⟨m', produced', fusableM⟩ := absorbing v (List.contains_iff_mem.mp inside)
          obtain rfl : m = m' := Option.some.inj (produced.symm.trans produced')
          obtain ⟨⟨k, at_⟩, -⟩ := located.owned.of_producer? produced
          obtain ⟨l', here, -, admits⟩ := located.graph.node at_
          obtain rfl : l' = l :=
            Option.some.inj (here.symm.trans (located.graph.producer located.owned placeV produced))
          exact ih admits fusableM there first
        · rw [if_neg inside] at first
          rwa [show t.load v = (t₂, j) from Except.ok.inj first] at loaded

end Tree

/-- What is absorbed is computed by something that can be part of an expression. -/
theorem absorbing_of_ran (found : Fusion.absorbed c p = .ok absorbed) :
    Absorbing p.graph absorbed (·.isFusable) := by
  intro v member
  have held := ((filterM_eq_ok found v).mp member).2
  unfold absorbs at held
  cases produced : p.graph.producer? v with
  | none => simp [produced] at held
  | some m =>
    refine ⟨m, rfl, ?_⟩
    cases reads : reader? p.liveNodes v with
    | none => simp [produced, reads] at held
    | some n =>
      simp only [produced, reads] at held
      by_cases fusable : m.op.isFusable
      · exact fusable
      · simp [fusable] at held

/-- Expressions stand where all that they absorb stood. -/
theorem run_located (located : p.Located) (ran : run c p = .ok q) : q.Located := by
  obtain ⟨absorbed, found, built⟩ := bind_eq_ok.mp ran
  refine located.rebuilt (fun {before after n r} split carries => ?_) built
  unfold step
  by_cases gone : absorbed.contains n.output
  · rw [if_pos gone]
    exact carries.skipped n
  rw [if_neg gone]
  by_cases fuses : (n.op.isFusable && n.inputs.any fun v => absorbed.contains v) = true
  swap
  · rw [if_neg fuses]
    exact located.copy split carries
  rw [if_pos fuses, meets_bind, meets_lift]
  cases expanded : Tree.expand p.graph absorbed (n.id + 1) n {} with
  | error e => trivial
  | ok result =>
    obtain ⟨t, i⟩ := result
    have fusable : n.op.isFusable := by
      rw [Bool.and_eq_true] at fuses
      exact fuses.1
    obtain ⟨k, at_⟩ := Program.live_at (p := p) (n := n) (by simp [split])
    obtain ⟨l, here, -, admits⟩ := located.graph.node at_
    have there := Tree.expand_located located (absorbing_of_ran found) admits fusable (by simp) expanded
    simp only
    rw [meets_bind]
    refine (Rebuild.readAll_keeps (Rebuild.Carries.copying located before) carries t.inputs).mono ?_
    rintro ws r₁ ⟨carries₁, -, images⟩
    refine carries₁.emitted located split (.inr ⟨?_, Bool.false_ne_true, fun v reads => ?_⟩) images
    · cases op : n.op <;> simp_all [Op.isFusable, Op.isTransfer]
    · rw [here, there v reads]

end Fusion

namespace Transfers

variable {c : Context} {p q : Program}

/-- The first half of a round leaves every value where it is read. -/
theorem rebuild_located (located : p.Located) (built : p.rebuild (step c p) = .ok q) : q.Located ∧ ∃ r, Keeps p r ∧
    q.graph = r.graph ∧ List.Forall₂ (fun v w => r.image v = some w) p.outputs q.outputs ∧
      List.Forall₂ (fun u u' => r.image u.1 = some u'.1 ∧ r.image u.2 = some u'.2) p.updates q.updates := by
  obtain ⟨r, kept, graph, inputs, roots⟩ := Program.rebuild_keeps (fun _ => Keeps p) (keeps_start p)
    (fun _ => copying located)
    (fun {before after n r} split kept => step_located located kept (by simp [split])) built
  exact ⟨kept.sites.program graph inputs, r, kept, graph, roots⟩

theorem sweep_located (located : p.Located) (ran : sweep c p = .ok q) : q.Located := by
  obtain ⟨next, built, pruned⟩ := bind_eq_ok.mp ran
  exact (rebuild_located located built).1.prune pruned

theorem run_located (located : p.Located) (ran : run c p = .ok q) : q.Located :=
  keeps_of_run sweep_located located ran

end Transfers

/-- Every pass but the first one leaves values where they are read. -/
theorem PassName.run_located {c : Context} {pass : PassName} (later : pass ≠ .canonicalize) {p q : Program}
    (located : p.Located) (ran : pass.run c p = .ok q) : q.Located := by
  cases pass with
  | canonicalize => exact absurd rfl later
  | placement => exact Placement.run_located (Program.computed_of_owned located.owned) ran
  | transfer => exact Transfers.run_located located ran
  | fusion => exact Fusion.run_located located ran
  | inplace => exact InPlace.run_located located ran
  | dce => exact located.prune ran

namespace Program

variable {c : Context} {p q : Program} {passes done rest : List PassName} {report : List PassReport}

theorem Located.runPasses (located : p.Located) (later : PassName.canonicalize ∉ passes)
    (ran : p.runPasses c passes = .ok (q, report)) : q.Located := by
  induction passes generalizing p report with
  | nil =>
    cases ran
    exact located
  | cons pass passes ih =>
    obtain ⟨next, report', first, others⟩ := runPasses_cons ran
    rw [List.mem_cons, not_or] at later
    exact ih (PassName.run_located (Ne.symm later.1) located first) later.2 others

end Program

/-- Placement comes right after the canonical form, if that is not left out, and nothing is made canonical later. -/
theorem PassName.split_at_placement {keep : PassName → Bool} (keeps : keep placement) {done rest : List PassName}
    (split : all.filter keep = done ++ rest) (placed : placement ∈ done) :
    ∃ first last, done = first ++ placement :: last ∧ (first = [] ∨ first = [canonicalize]) ∧ canonicalize ∉ last := by
  have later : ∀ ps : List PassName, ps <+: [transfer, fusion, inplace, dce].filter keep → canonicalize ∉ ps :=
    fun ps front member => by simpa using (List.mem_filter.mp (front.subset member)).1
  have front : done <+: all.filter keep := ⟨rest, split.symm⟩
  rw [all] at front
  by_cases first : keep canonicalize
  · rw [List.filter_cons_of_pos first, List.filter_cons_of_pos keeps, List.prefix_cons_iff] at front
    obtain rfl | ⟨done, rfl, front⟩ := front
    · cases placed
    rw [List.prefix_cons_iff] at front
    obtain rfl | ⟨last, rfl, front⟩ := front
    · simp at placed
    exact ⟨[canonicalize], last, rfl, .inr rfl, later last front⟩
  · rw [List.filter_cons_of_neg first, List.filter_cons_of_pos keeps, List.prefix_cons_iff] at front
    obtain rfl | ⟨last, rfl, front⟩ := front
    · cases placed
    exact ⟨[], last, rfl, .inl rfl, later last front⟩

/-- Once placement ran, every value is where it is read. -/
theorem Program.located_of_runPasses {c : Context} {p q : Program} {passes done rest : List PassName}
    {report : List PassReport} (accepted : p.validate = .ok ()) (standard : c.config.passes = .ok passes)
    (split : passes = done ++ rest) (placed : PassName.placement ∈ done)
    (ran : p.runPasses c done = .ok (q, report)) : q.Located := by
  obtain ⟨rfl, kept⟩ := PassName.standard_ok standard
  obtain ⟨first, last, rfl, start, later⟩ :=
    PassName.split_at_placement (by simpa [PassName.name] using kept) split placed
  obtain ⟨next, _, _, before, after⟩ := runPasses_append ran
  obtain ⟨next', _, here, others⟩ := runPasses_cons after
  have computed : next.Computed := by
    obtain rfl | rfl := start
    · cases before
      exact computed_of_validate accepted
    · obtain ⟨_, _, canonical, done⟩ := runPasses_cons before
      cases done
      exact Canonical.run_computed canonical
  exact (Placement.run_located computed here).runPasses later others

end TensorGraph
