import TensorGraph.Proofs.Pass.Paired
import TensorGraph.Proofs.Pass.Thinned

/-! A program without needless transfers stays as it is. In a second round nothing is found to get around a transfer,
so the round copies the program, and a pruned program is its own copy. -/
namespace TensorGraph

open Checked Rebuilding

theorem Rebuilding.Meets.eq_ok {α : Type} {act : Rebuilding α} {r s : Rebuild} {a : α}
    (met : act.Meets r (fun _ => False) fun b next => b = a ∧ next = s) : act r = .ok (a, s) := by
  unfold Meets at met
  cases ran : act r with
  | error e =>
    rw [ran] at met
    exact met.elim
  | ok result =>
    rw [ran] at met
    rw [← met.1, ← met.2]

namespace Graph.Located

variable {g : Graph}

/-- A transfer moves one value. -/
theorem moved (located : g.Located) {i : NodeId} {n : Node} (at_ : g.nodes[i]? = some n) (moves : n.op.isTransfer) :
    ∃ u y, n.inputs = [u] ∧ g.vars[u]? = some y := by
  obtain ⟨l, -, -, admits⟩ := located.node at_
  obtain ⟨-, -, u, from_, single, place, -⟩ := admits.moves moves
  exact ⟨u, _, single, Array.getElem?_eq_getElem (lt_of_placeOf place)⟩

end Graph.Located

namespace Graph.Unavoidable

variable {g : Graph} {c : Context} {x : VarId} {dest : Location}

/-- A value that came from `dest` is not had back by another transfer. -/
theorem unbrought (stuck : g.Unavoidable c x dest) (located : g.Located) (owned : g.Owned) {w : VarId}
    (brings : g.Brings w x) : g.placeOf w ≠ some dest := by
  obtain ⟨m, produced, moves, first⟩ := brings
  obtain ⟨⟨i, at_⟩, -⟩ := owned.of_producer? produced
  obtain ⟨u, -, inputs, -⟩ := located.moved at_ moves
  obtain rfl : u = w := by simpa [inputs] using first
  exact stuck.back produced moves inputs

/-- The layout of a value that came from `dest` cannot be changed there. -/
theorem unturned (stuck : g.Unavoidable c x dest) (located : g.Located) (owned : g.Owned)
    (single : ∀ {m : Node}, g.producer? x = some m → m.op.isLayout → ∃ y, m.inputs = [y]) {op : Op} {w : VarId}
    (turns : g.Turns op w x) (there : g.placeOf w = some dest) :
    ∃ t z, c.table dest = .ok t ∧ g.vars[w]? = some z ∧ ¬ (t.supports op [z.ty.kind]).isOk := by
  obtain ⟨m, y, produced, rfl, layout, first, k, producedY, moves, firstK⟩ := turns
  obtain ⟨y', inputs⟩ := single produced layout
  obtain rfl : y' = y := by simpa [inputs] using first
  obtain ⟨⟨j, atJ⟩, -⟩ := owned.of_producer? producedY
  obtain ⟨w', -, inputsK, -⟩ := located.moved atJ moves
  obtain rfl : w' = w := by simpa [inputsK] using firstK
  exact stuck.turned produced layout inputs producedY moves inputsK there

end Graph.Unavoidable

namespace Transfers

variable {c : Context} {p q : Program} {r r' : Rebuild}

/-- Nothing is found to get around a transfer that cannot be avoided. -/
theorem simplify_of_unavoidable {x : VarId} {dest : Location} (stuck : r.graph.Unavoidable c x dest)
    (located : r.graph.Located) (owned : r.graph.Owned) (inRange : x < r.graph.vars.size)
    (single : ∀ {m : Node}, r.graph.producer? x = some m → m.op.isLayout → ∃ y, m.inputs = [y]) :
    simplify c x dest r = .ok (none, r) := by
  refine Meets.eq_ok (((simplify_outcome c r x dest).weaken fun _ failed => ?_).mono fun found r' outcome => ?_)
  · cases failed with
    | unknown missing => exact absurd inRange (Nat.not_lt.mpr (Array.getElem?_eq_none_iff.mp missing))
    | @unread v m produced reads missing =>
      obtain ⟨⟨i, at_⟩, -⟩ := owned.of_producer? produced
      rcases reads with moves | ⟨rfl, layout⟩
      · obtain ⟨u, y, inputs, atU⟩ := located.moved at_ moves
        cases atU.symm.trans (missing u (by simp [inputs]))
      · obtain ⟨y, inputs⟩ := single produced layout
        obtain ⟨l, -, -, admits⟩ := located.node at_
        have there := admits.computes (Op.computes_layout layout) y (by simp [inputs])
        cases (Array.getElem?_eq_getElem (Graph.lt_of_placeOf there)).symm.trans (missing y (by simp [inputs]))
    | untabled turns there missing =>
      obtain ⟨t, z, tabled, -⟩ := stuck.unturned located owned single turns there
      cases tabled.symm.trans missing
    | refused turns there atW tabled runs =>
      obtain ⟨t, z, tabled', atW', refused⟩ := stuck.unturned located owned single turns there
      cases tabled.symm.trans tabled'
      cases atW.symm.trans atW'
      exact refused runs
  cases outcome with
  | here here => exact absurd here stuck.away
  | back brings there => exact absurd there (stuck.unbrought located owned brings)
  | turned turns there atW inferred tabled runs =>
    obtain ⟨t, z, tabled', atW', refused⟩ := stuck.unturned located owned single turns there
    cases tabled.symm.trans tabled'
    cases atW.symm.trans atW'
    exact absurd runs refused
  | stuck => exact ⟨rfl, rfl⟩

/-- A copy in progress: it computes what the program computes, and each of its transfers is the copy of one that is
done. -/
structure Retraces (p : Program) (done : List Node) (r : Rebuild) : Prop where
  carries : r.Carries p done
  traces : p.graph.Traces r.graph r.image

namespace Retraces

variable {done : List Node}

theorem start (p : Program) : Retraces p [] (.start p) where
  carries := .start p
  traces :=
    { typed := fun at_ => (by cases at_)
      produced := fun at_ => (by cases at_) }

/-- A graph that grows by the image of one more variable. -/
theorem bound (retraces : Retraces p done r) {g : Graph} (grows : r.graph.Grows g) {v : VarId}
    (unread : r.image v = none) {x y : Var} (atV : p.graph.vars[v]? = some x)
    (atNew : g.vars[r.graph.vars.size]? = some y) (same : y.ty = x.ty)
    (produced : ∀ m : Node, g.producer? r.graph.vars.size = some m → ∃ n, p.graph.producer? v = some n ∧
      m.op = n.op ∧ List.Forall₂ (fun v w => r.image v = some w) n.inputs m.inputs) :
    p.graph.Traces g fun u => if u = v then some r.graph.vars.size else r.image u where
  typed {u w} at_ := by
    by_cases this : u = v
    · rw [if_pos this] at at_
      cases at_
      exact ⟨x, y, this ▸ atV, atNew, same⟩
    · rw [if_neg this] at at_
      obtain ⟨x, y, atU, atW, same⟩ := retraces.traces.typed at_
      exact ⟨x, y, atU, grows.vars atW, same⟩
  produced {u w m} at_ atW := by
    have kept : ∀ {n : Node}, List.Forall₂ (fun v w => r.image v = some w) n.inputs m.inputs →
        List.Forall₂ (fun u w => (if u = v then some r.graph.vars.size else r.image u) = some w) n.inputs m.inputs :=
      fun images => images.imp fun _ _ image => Rebuild.image_bound unread _ image
    by_cases this : u = v
    · rw [if_pos this] at at_
      cases at_
      obtain ⟨n, atN, op, images⟩ := produced m atW
      exact ⟨n, this ▸ atN, op, kept images⟩
    · rw [if_neg this] at at_
      obtain ⟨x, y, -, atY, -⟩ := retraces.traces.typed at_
      rw [retraces.carries.sites.owned.producer?_grows grows (Array.getElem?_eq_some_iff.mp atY).1] at atW
      obtain ⟨n, atN, op, images⟩ := retraces.traces.produced at_ atW
      exact ⟨n, atN, op, kept images⟩

theorem copying (located : p.Located) (done : List Node) : p.Copying (Retraces p done) := by
  intro r v x retraces unread atV isLeaf
  refine ⟨retraces.carries.copied located unread atV isLeaf, ?_⟩
  have atNew : (r.graph.pushLeaf x).1.vars[r.graph.vars.size]? = some x := Array.getElem?_push_size
  refine retraces.bound (Graph.pushLeaf_grows r.graph x) unread atV atNew rfl fun m produced => ?_
  obtain ⟨y, i, atY, origin, -⟩ := Graph.producer?_eq_some.mp produced
  obtain rfl : x = y := Option.some.inj (atNew.symm.trans atY)
  simp [Var.isLeaf, origin] at isLeaf

theorem copy {d : Discipline} (valid : p.Valid d) (located : p.Located) {before after : List Node} {n : Node}
    (split : p.liveNodes = before ++ n :: after) (retraces : Retraces p before r) :
    (Rebuild.copy p n).Meets r (fun _ => True) fun _ r' => Retraces p (before ++ [n]) r' := by
  have live : n ∈ p.liveNodes := by simp [split]
  obtain ⟨tys, ty, x, known⟩ := valid.operation live
  unfold Rebuild.copy
  rw [meets_bind]
  refine (Rebuild.readAll_keeps (copying located before) retraces n.inputs).mono ?_
  rintro ws r₁ ⟨retraces₁, -, images⟩
  have stands : Rebuild.Carries.StandsFor p n n.op n.inputs n.inPlace := .inl ⟨rfl, rfl, located.unmarked live⟩
  have carried := retraces₁.carries.emitted located split stands images
  suffices traced : Meets _ r₁ (fun _ => True) fun _ r' => p.graph.Traces r'.graph r'.image from
    (carried.and traced).mono fun _ _ met => ⟨met.1, met.2⟩
  rw [meets_bind]
  refine (Rebuild.emit_typed n.op ws n.place n.inPlace).mono ?_
  rintro _ _ ⟨rfl, tys', ty', types', inferred', rfl⟩
  simp only [Rebuild.bind, meets_modify]
  have types : ∀ {vs ws : List VarId} {ts : List Ty}, List.Forall₂ (fun v w => r₁.image v = some w) vs ws →
      p.graph.Types vs ts → r₁.graph.Types ws ts := by
    intro vs ws ts images types
    refine forall₂_through images.flip types ?_
    rintro w v t image ⟨x, atV, rfl⟩
    obtain ⟨x', y, atV', atW, same⟩ := retraces₁.traces.typed image
    obtain rfl : x = x' := Option.some.inj (atV.symm.trans atV')
    exact ⟨y, atW, same⟩
  obtain rfl : tys' = tys := types'.unique (types images known.types)
  obtain rfl : ty' = ty := Except.ok.inj (inferred'.symm.trans known.inferred)
  refine retraces₁.bound (Graph.grown_grows ..) (retraces₁.carries.unread located split) known.atOutput
    (Graph.grown_vars.mpr (.inr ⟨rfl, rfl⟩)) known.placed.symm fun m produced => ?_
  obtain ⟨y, i, atY, origin, at_⟩ := Graph.producer?_eq_some.mp produced
  obtain rfl := Option.some.inj ((Graph.grown_vars.mpr (.inr ⟨rfl, rfl⟩)).symm.trans atY)
  cases origin
  obtain rfl := Option.some.inj ((Graph.grown_nodes.mpr (.inr ⟨rfl, rfl⟩)).symm.trans at_)
  exact ⟨n, valid.graph.producer?_output (valid.graph.live_mem live), rfl, images⟩

end Retraces

/-- A round and a copy have made the same graph with the same images, and the transfers that the round has noted stand
in the graph. -/
structure Even (r r' : Rebuild) : Prop where
  graph : r.graph = r'.graph
  image : r.image = r'.image
  noted : ∀ {l : Location} {x w : VarId}, ((Op.transferTo l, [x]), w) ∈ r.known →
    ∃ (i : NodeId) (m : Node), r'.graph.nodes[i]? = some m ∧ m.op.isTransfer ∧ m.inputs = [x] ∧ m.place = some l

namespace Even

/-- Both add an operation and bind its result. -/
theorem emitted (even : Even r r') (op : Op) (ws : List VarId) (place : Place) (mark : Option Nat) (v : VarId) :
    Agree (fun a b => Even a.2 b.2)
      ((do Rebuild.bind v (← Rebuild.emit op ws place mark) : Rebuilding Unit) r)
      ((do Rebuild.bind v (← Rebuild.emit op ws place mark) : Rebuilding Unit) r') := by
  rw [bind_apply, bind_apply]
  refine (Rebuild.emit_agree even.graph op ws place mark).bind ?_
  rintro ⟨w, _⟩ ⟨_, _⟩ ⟨rfl, -, ty, rfl, rfl⟩
  refine ⟨rfl, by simp only [even.image], fun member => ?_⟩
  obtain ⟨i, m, at_, rest⟩ := even.noted member
  exact ⟨i, m, (Graph.grown_grows ..).nodes at_, rest⟩

/-- Both add a transfer, and the round notes it. -/
theorem transferred (even : Even r r') {op : Op} (moves : op.isTransfer) (l : Location) (x v : VarId) :
    Agree (fun a b => Even a.2 b.2)
      ((do
        let w ← Rebuild.emit op [x] (some l) none
        Rebuild.note (.transferTo l) [x] w
        Rebuild.bind v w : Rebuilding Unit) r)
      ((do Rebuild.bind v (← Rebuild.emit op [x] (some l) none) : Rebuilding Unit) r') := by
  rw [bind_apply, bind_apply]
  refine (Rebuild.emit_agree even.graph op [x] (some l) none).bind ?_
  rintro ⟨w, _⟩ ⟨_, _⟩ ⟨rfl, -, ty, rfl, rfl⟩
  refine ⟨rfl, by simp only [even.image], fun {l' x' w'} member => ?_⟩
  rcases List.mem_cons.mp member with new | old
  · simp only [Prod.mk.injEq, List.cons.injEq, and_true] at new
    obtain ⟨⟨same, rfl⟩, -⟩ := new
    exact ⟨_, _, Graph.grown_nodes.mpr (.inr ⟨rfl, rfl⟩), moves, rfl, by rw [Placement.transferTo_inj same]⟩
  · obtain ⟨i, m, at_, rest⟩ := even.noted old
    exact ⟨i, m, (Graph.grown_grows ..).nodes at_, rest⟩

end Even

/-- A round of a program beside a copy of it. -/
structure Beside (p : Program) (done : List Node) (r r' : Rebuild) : Prop extends Even r r' where
  retraces : Retraces p done r'

namespace Beside

theorem pairs (located : p.Located) (done : List Node) : p.Pairs (Beside p done) where
  graph beside := beside.graph
  image beside := beside.image
  copied {r r' v x} beside unread atV isLeaf :=
    { graph := by rw [Rebuild.copied, Rebuild.copied, beside.graph]
      image := by rw [Rebuild.copied, Rebuild.copied, beside.graph, beside.image]
      noted := beside.noted
      retraces := Retraces.copying located done beside.retraces (beside.image ▸ unread) atV isLeaf }

variable {before after : List Node} {n : Node}

/-- Where a transfer of a settled program is due, no transfer like it was noted. -/
theorem unnoted (beside : Beside p before r r') (located : p.Located) (split : p.liveNodes = before ++ n :: after)
    (moves : n.op.isTransfer) {l : Location} (place : n.place = some l) {v x : VarId} (inputs : n.inputs = [v])
    (image : r'.image v = some x) (w : VarId) : ((Op.transferTo l, [x]), w) ∉ r.known := by
  intro member
  obtain ⟨i, m, at_, movesM, inputsM, placeM⟩ := beside.noted member
  have images : List.Forall₂ (fun v w => r'.image v = some w) n.inputs [x] := inputs ▸ .cons image .nil
  exact beside.retraces.carries.unmoved located split moves images at_ movesM inputsM (placeM.trans place.symm)

/-- Where a transfer of a settled program is due, there is no way around it. -/
theorem stuck {d : Discipline} (beside : Beside p before r r') (valid : p.Valid d) (settled : p.Settled c)
    (live : n ∈ p.liveNodes) (moves : n.op.isTransfer) {l : Location} (place : n.place = some l) {v x : VarId}
    (inputs : n.inputs = [v]) (image : r'.image v = some x) : simplify c x l r = .ok (none, r) := by
  obtain ⟨l', place', stuck⟩ := settled.needed n (Program.live_subset live) moves
  obtain rfl : l = l' := Option.some.inj (place.symm.trans place')
  obtain ⟨carries, traces⟩ := beside.retraces
  have graph := beside.graph
  have inRange := Graph.lt_of_placeOf (carries.stays v x image).choose_spec.2
  refine simplify_of_unavoidable (graph ▸ (stuck v (by simp [inputs])).traced traces image)
    (graph ▸ carries.sites.located) (graph ▸ carries.sites.owned) (graph ▸ inRange) fun produced layout => ?_
  rw [graph] at produced
  obtain ⟨k, atV, op, images⟩ := traces.produced image produced
  obtain ⟨u, -, -, -, single, -⟩ := valid.graph.single (valid.graph.of_producer? atV).1
    (Op.arity_layout (op ▸ layout))
  rw [single] at images
  obtain ⟨y, rest, -, none, whole⟩ := List.forall₂_cons_left_iff.mp images
  rw [List.forall₂_nil_left_iff.mp none] at whole
  exact ⟨y, whole⟩

/-- On a settled program a step of a round is a copy, and the round notes what it copied. -/
theorem step_agree {d : Discipline} (beside : Beside p before r r') (valid : p.Valid d) (located : p.Located)
    (settled : p.Settled c) (split : p.liveNodes = before ++ n :: after) :
    Agree (fun a b => Beside p (before ++ [n]) a.2 b.2) (step c p n r) (Rebuild.copy p n r') := by
  have live : n ∈ p.liveNodes := by simp [split]
  have even : Agree (fun a b => Even a.2 b.2) (step c p n r) (Rebuild.copy p n r') := by
    obtain ⟨i, at_⟩ := Program.live_at live
    obtain ⟨l, here, -, admits⟩ := located.graph.node at_
    unfold step Rebuild.copy
    by_cases moves : n.op.isTransfer
    · obtain ⟨-, unmarked, v, from_, single, -, -⟩ := admits.moves moves
      simp only [moves, here, single, unmarked, Rebuild.readAll, List.mapM_cons, List.mapM_nil, bind_assoc, pure_bind]
      rw [bind_apply, bind_apply]
      refine (Rebuild.read_agree (pairs located before) beside v).bind ?_
      rintro ⟨x, s⟩ ⟨_, s'⟩ ⟨rfl, beside, image⟩
      have absent := Rebuild.known?_of_absent (beside.unnoted located split moves here single image)
      have stuck := beside.stuck valid settled live moves here single image
      simp only [bind_apply, absent, ok_bind, stuck]
      exact beside.transferred moves l x n.output
    · have stands : n.op.isTransfer = false := by simpa using moves
      simp only [stands]
      rw [bind_apply, bind_apply]
      refine (Rebuild.readAll_agree (pairs located before) beside n.inputs).bind ?_
      rintro ⟨ws, s⟩ ⟨_, s'⟩ ⟨rfl, beside⟩
      exact beside.emitted n.op ws n.place n.inPlace n.output
  have both := even.and (S := fun b => Retraces p (before ++ [n]) b.2) fun b ran =>
    (Retraces.copy valid located split beside.retraces).of_ok ran
  exact both.mono fun _ _ ⟨even, retraces⟩ => ⟨even, retraces⟩

end Beside

/-- A round leaves a settled program as pruning leaves it. -/
theorem sweep_of_settled {d : Discipline} (valid : p.Valid d) (located : p.Located) (settled : p.Settled c)
    (pruned : p.prune = .ok p) : sweep c p = .ok p := by
  have agree : Agree Eq (p.rebuild (step c p)) p.prune :=
    Program.rebuild_agree (Beside.pairs located) ⟨⟨rfl, rfl, fun member => (by cases member)⟩, .start p⟩
      fun split beside => beside.step_agree valid located settled split
  unfold sweep
  cases built : p.rebuild (step c p) with
  | error e =>
    rw [built, pruned] at agree
    exact agree.elim
  | ok q =>
    rw [built, pruned] at agree
    obtain rfl : q = p := agree
    exact pruned

theorem settle_of_fixed (fixed : sweep c p = .ok p) (rounds : Nat) : settle c rounds p = .ok p := by
  cases rounds with
  | zero => rfl
  | succ rounds =>
    rw [settle, fixed, ok_bind]
    exact if_pos ⟨rfl, rfl⟩

theorem run_of_sweep (swept : sweep c p = .ok q) (fixed : sweep c q = .ok q) : run c p = .ok q := by
  rw [run, swept, ok_bind]
  exact settle_of_fixed fixed maxRounds

/-- The removal of transfers settles what placement made, in one round: the second round gives the same program, and so
the rounds never run out, however few there are. In the result no transfer can be avoided, none stands there twice and
no operation is dead. There are no more operations and no more transfers than before, and a second run gives the same
program. -/
theorem removal_settles (arises : p.graph.Arises) (accepted : p.validate = .ok ()) (context : c.Built)
    (placed : Placement.run c p = .ok q) : (∃ r, run c q = .ok r) ∧ ∀ c' r, run c' q = .ok r →
      sweep c' q = .ok r ∧ sweep c' r = .ok r ∧ (∀ rounds, settle c' rounds r = .ok r) ∧ r.Settled c' ∧
        r.nodeCount ≤ q.nodeCount ∧ r.transferCount ≤ q.transferCount ∧ run c' r = .ok r := by
  have placed := Placement.placed_of_run arises accepted placed
  refine ⟨exists_run context placed, fun c' r ran => ?_⟩
  obtain ⟨next, swept, -⟩ := bind_eq_ok.mp ran
  obtain ⟨valid, located, settled, pruned, nodes, transfers⟩ :=
    sweep_settles (placed.valid.storing trivial) placed.located swept
  have fixed := sweep_of_settled valid located settled pruned
  obtain rfl : r = next := Except.ok.inj (ran.symm.trans (run_of_sweep swept fixed))
  exact ⟨swept, fixed, settle_of_fixed fixed, settled, nodes, transfers, run_of_sweep fixed fixed⟩

/-- A product of two matrices of integers, transposed. The transposed one and its negative are multiplied with the first
matrix, where the simulated accelerator cannot do that. -/
def signedProduct : Program :=
  let first := ((Graph.empty .f32).input { kind := .i32, rank := 2 } none).1
  let both := (first.input { kind := .i32, rank := 2 } none).1
  let product := (both.apply .matmul [0, 1]).1
  let turned := (product.apply (.transpose [1, 0]) [2]).1
  let negated := (turned.apply (.unary .neg) [3]).1
  let once := (negated.apply .matmul [3, 0]).1
  ⟨(once.apply .matmul [4, 0]).1, [0, 1], [5, 6], []⟩

theorem built_signedProduct : signedProduct.graph.Built :=
  .apply (.apply (.apply (.apply (.apply (.input (.input (.empty _) _ _) _ _) _ _) _ _) _ _) _ _) _ _

section

open scoped BlockRoutine

/-- The product still goes to the accelerator, where it is transposed and its sign is changed, and the negative comes
back. The transposed product does not, since the host transposes the product too. -/
theorem removal_settles_signedProduct : ∃ q r, Placement.run (.first (.sim 0) .silent) signedProduct = .ok q ∧
    run (.first (.sim 0) .silent) q = .ok r ∧ (q.nodeCount, q.transferCount) = (8, 3) ∧
    (r.nodeCount, r.transferCount) = (8, 2) ∧ r.Settled (.first (.sim 0) .silent) ∧ run (.first (.sim 0) .silent) r = .ok r := by
  obtain ⟨q, placed⟩ := exists_of_isOk (r := Placement.run (.first (.sim 0) .silent) signedProduct) (by decide +kernel)
  obtain ⟨⟨r, ran⟩, settles⟩ := removal_settles built_signedProduct.arises (by decide +kernel)
    Context.built_first placed
  obtain ⟨-, -, -, settled, -, -, again⟩ := settles _ r ran
  have sizes : (Placement.run (.first (.sim 0) .silent) signedProduct).toOption.map (fun q =>
      ((q.nodeCount, q.transferCount), (run (.first (.sim 0) .silent) q).toOption.map fun r =>
        (r.nodeCount, r.transferCount))) = some ((8, 3), some (8, 2)) := by decide +kernel
  rw [placed] at sizes
  simp only [Except.toOption, Option.map_some, ran, Option.some.injEq, Prod.mk.injEq] at sizes
  exact ⟨q, r, placed, ran, Prod.ext sizes.1.1 sizes.1.2, Prod.ext sizes.2.1 sizes.2.2, settled, again⟩

end

end Transfers

end TensorGraph
