import TensorGraph.Proofs.Pass.Detour
import TensorGraph.Proofs.Pass.Placement

/-! The removal of transfers keeps types, places and values. A transfer gives its operand, so a layout
operation may as well be done before it. -/
namespace TensorGraph

open Checked Rebuilding

namespace Op

theorem arity_transfer {op : Op} (moves : op.isTransfer) : op.arity = 1 := by
  cases op <;> first | rfl | exact absurd moves Bool.false_ne_true

theorem arity_layout {op : Op} (layout : op.isLayout) : op.arity = 1 := by
  cases op <;> first | rfl | exact absurd layout Bool.false_ne_true

end Op

namespace Graph

/-- A transferred value has the type and the value of its operand. -/
theorem Sound.transferred [BlockRoutine] {g : Graph} {d : Discipline} (sound : g.Sound d) {i : NodeId} {n : Node}
    (at_ : g.nodes[i]? = some n) (moves : n.op.isTransfer) :
    ∃ u z y, n.inputs = [u] ∧ g.vars[u]? = some z ∧ g.vars[n.output]? = some y ∧
      z.ty.Alike y.ty ∧ y.ty.place = n.place ∧
      ∀ math b, g.value (fun _ => math) b n.output = g.value (fun _ => math) b u := by
  obtain ⟨u, z, ty, y, inputs, atU, inferred, atOutput, placed, -⟩ :=
    sound.single at_ (Op.arity_transfer moves)
  cases (Placement.infer_transfer moves z.ty).symm.trans inferred
  refine ⟨u, z, y, inputs, atU, atOutput, ?_, ?_, fun math b => ?_⟩
  · rw [placed]
    exact ⟨rfl, rfl⟩
  · rw [placed]
    rfl
  · rw [sound.value_output at_, inputs]
    exact Placement.value_moved moves math _ u

variable {g : Graph} {d : Discipline} {w x : VarId}

theorem Sound.brought [BlockRoutine] (sound : g.Sound d) (brings : g.Brings w x) : ∃ z y, g.vars[w]? = some z ∧
    g.vars[x]? = some y ∧ z.ty.Alike y.ty ∧
      ∀ math b, g.value (fun _ => math) b x = g.value (fun _ => math) b w := by
  obtain ⟨m, produced, moves, first⟩ := brings
  obtain ⟨at_, rfl⟩ := sound.of_producer? produced
  obtain ⟨u, z, y, inputs, atU, atOutput, alike, -, value⟩ := sound.transferred at_ moves
  obtain rfl : u = w := by simpa [inputs] using first
  exact ⟨z, y, atU, atOutput, alike, value⟩

/-- Another layout of a transferred value is that layout of the value. -/
theorem Sound.turned [BlockRoutine] {op : Op} (sound : g.Sound d) (turns : g.Turns op w x) : ∃ z t ty y place mark,
    g.vars[w]? = some z ∧ g.vars[x]? = some y ∧ z.ty.Alike t ∧ d.op op [t] place mark ∧ op.infer [t] = .ok ty ∧
      y.ty = ty.placed place ∧ ∀ math b, g.value (fun _ => math) b x =
        ([w].mapM (g.value (fun _ => math) b)).bind fun ts => (op.eval math ts).toOption := by
  obtain ⟨m, v, produced, rfl, layout, first, brings⟩ := turns
  obtain ⟨at_, rfl⟩ := sound.of_producer? produced
  obtain ⟨u, t, ty, y, inputs, atU, inferred, atOutput, placed, rule⟩ := sound.single at_ (Op.arity_layout layout)
  obtain rfl : u = v := by simpa [inputs] using first
  obtain ⟨z, t', atW, atU', alike, value⟩ := sound.brought brings
  obtain rfl : t = t' := Option.some.inj (atU.symm.trans atU')
  refine ⟨z, t.ty, ty, y, m.place, m.inPlace, atW, atOutput, alike, rule, inferred, placed, fun math b => ?_⟩
  rw [sound.value_output at_, inputs]
  simp only [List.mapM_cons, List.mapM_nil, value]

/-- The operation that gives the other layout reads what has the value. -/
theorem Sound.turned_operands [BlockRoutine] {op : Op} (sound : g.Sound d) (turns : g.Turns op w x) :
    ∃ m ∈ g.nodes, m.op = op ∧ ∀ math b, m.inputs.mapM (g.value (fun _ => math) b) =
      [w].mapM (g.value (fun _ => math) b) := by
  obtain ⟨m, v, produced, rfl, layout, first, brings⟩ := turns
  obtain ⟨at_, rfl⟩ := sound.of_producer? produced
  obtain ⟨u, -, -, -, inputs, -⟩ := sound.single at_ (Op.arity_layout layout)
  obtain rfl : u = v := by simpa [inputs] using first
  obtain ⟨-, -, -, -, -, value⟩ := sound.brought brings
  refine ⟨m, Array.mem_of_getElem? at_, rfl, fun math b => ?_⟩
  rw [inputs]
  simp only [List.mapM_cons, List.mapM_nil, value]

/-- The operand of a transfer or of another layout is there. -/
theorem Sound.reads_single (sound : g.Sound d) {m : Node} (produced : g.producer? x = some m) (one : m.op.arity = 1) :
    ∃ u, m.inputs.head? = some u ∧ g.vars[u]? ≠ none := by
  obtain ⟨at_, -⟩ := sound.of_producer? produced
  obtain ⟨u, z, -, -, inputs, atU, -⟩ := sound.single at_ one
  exact ⟨u, by simp [inputs], by simp [atU]⟩

end Graph

namespace Transfers

/-- Rules that the removal of transfers keeps: a transfer may read another variable of the type, and where a
transfer leads, a layout operation may stand on a value that is there. -/
structure Sheds (d : Discipline) : Prop where
  congruent : d.Congruent
  again : ∀ {op : Op} {t t' : Ty} {l : Location} {mark : Option Nat}, op.isTransfer → d.op op [t] (some l) mark →
    t.Alike t' → d.op op [t'] (some l) none
  layout : ∀ {op move : Op} {t t' u : Ty} {place : Place} {dest : Location} {mark mark' : Option Nat}, op.isLayout →
    d.op op [t] place mark → move.isTransfer → d.op move [u] (some dest) mark' → t.Alike t' →
      t'.place = some dest → d.op op [t'] (some dest) none

variable {c : Context} {p : Program} {d : Discipline} {scope : Scope} {s : Stage} {fails : Prop} {r : Rebuild}

theorem sheds_placed (target : Location) (scope : Scope) : Sheds (.placed target scope) where
  congruent := Discipline.congruent_placed target scope
  again := by
    rintro op t t' l mark moves ⟨-, l', same, known, transfers, -⟩ -
    obtain rfl := Option.some.inj same
    exact ⟨rfl, l, rfl, known, transfers, fun computes => absurd moves computes⟩
  layout := by
    rintro op move t t' u place dest mark mark' layout ⟨-, l, -, -, -, allowed⟩ - ⟨-, l', same, known, -⟩ alike place'
    obtain rfl := Option.some.inj same
    have computes := Op.computes_layout layout
    refine ⟨rfl, dest, rfl, known, fun moves => absurd moves computes, fun _ t'' member => ?_⟩
    obtain rfl := List.mem_singleton.mp member
    obtain ⟨-, allows⟩ := allowed computes t (by simp)
    rw [← alike.1]
    exact ⟨place', allows⟩

variable [BlockRoutine]

/-- What is used instead of a transfer is where the transfer leads, with the same type and value. -/
theorem simplify_meets (sheds : Sheds d) (mirrors : r.Mirrors p d s) {dest : Location}
    (table : (∃ t, c.table dest = .ok t) ∨ fails) {move : Op} {from_ : Ty} {mark : Option Nat} (moves : move.isTransfer)
    (leads : d.op move [from_] (some dest) mark) {x : VarId} {y : Var} (atX : r.graph.vars[x]? = some y) :
    (simplify c x dest).Meets r (fun _ => fails) fun found r' =>
      r'.Mirrors p d s ∧ r.Grows r' ∧ ∀ w, found = some w →
        (∃ z, r'.graph.vars[w]? = some z ∧ y.ty.Alike z.ty ∧ z.ty.place = some dest) ∧
        (s.kept → s.after r'.graph w = s.after r.graph x) := by
  refine ((simplify_outcome c r x dest).weaken fun _ failed => ?_).mono fun found r' outcome => ?_
  · cases failed with
    | unknown missing => cases atX.symm.trans missing
    | @unread v m produced reads missing =>
      have one : m.op.arity = 1 := reads.elim Op.arity_transfer fun turned => Op.arity_layout turned.2
      obtain ⟨u, first, there⟩ := mirrors.graph.reads_single produced one
      exact absurd (missing u first) there
    | untabled _ _ missing =>
      rcases table with ⟨t, tabled⟩ | failed
      · cases tabled.symm.trans missing
      · exact failed
    | refused turns _ atW _ _ refused =>
      obtain ⟨z, t, ty, -, -, -, atW', -, alike, -, inferred, -⟩ := mirrors.graph.turned turns
      cases atW.symm.trans atW'
      cases (Op.infer_congr inferred (.cons alike.symm .nil)).symm.trans refused
  cases outcome with
  | here here =>
    refine ⟨mirrors, .refl r, ?_⟩
    rintro w ⟨⟩
    exact ⟨⟨y, atX, .refl _, Graph.placeOf_eq atX ▸ here⟩, fun _ => rfl⟩
  | stuck => exact ⟨mirrors, .refl r, by rintro w ⟨⟩⟩
  | back brings there =>
    obtain ⟨z, y', atW, atX', alike, value⟩ := mirrors.graph.brought brings
    cases atX.symm.trans atX'
    refine ⟨mirrors, .refl r, ?_⟩
    rintro w ⟨⟩
    exact ⟨⟨z, atW, alike.symm, Graph.placeOf_eq atW ▸ there⟩, fun _ => (value _ _).symm⟩
  | @turned op w z ty' t turns there atW inferred' tabled runs =>
    obtain ⟨z', t', ty, y', place, mark', atW', atX', alike, rule, inferred, placed, value⟩ :=
      mirrors.graph.turned turns
    cases atW.symm.trans atW'
    cases atX.symm.trans atX'
    cases inferred'.symm.trans (Op.infer_congr inferred (.cons alike.symm .nil))
    have rule' : d.op op [z.ty] (some dest) none :=
      sheds.layout turns.layout rule moves leads alike.symm (Graph.placeOf_eq atW ▸ there)
    have types : r.graph.Types [w] [z.ty] := .cons ⟨z, atW, rfl⟩ .nil
    have calm : s.kept → s.Calm p → ¬ op.isPointwise → op.Calm ([w].mapM (s.after r.graph)) := by
      obtain ⟨m, member, rfl, operands⟩ := mirrors.graph.turned_operands turns
      intro held calm _
      have before := mirrors.calm held calm m member
      rwa [show m.inputs.mapM (s.after r.graph) = _ from operands _ _] at before
    have added : (Rebuild.emit op [w] (some dest) none).Meets r (fun _ => fails) _ :=
      mirrors.emit types inferred' rule' calm
    obtain ⟨mirrors', grows, -, -, -, -, ⟨y₁, atNew, placedNew, -⟩, valueNew⟩ :=
      added.of_ok (Rebuild.emit_eq_ok types inferred' _ _)
    refine ⟨mirrors', grows, ?_⟩
    rintro _ ⟨⟩
    refine ⟨⟨y₁, atNew, ?_, ?_⟩, fun _ => valueNew.trans (value _ _).symm⟩
    · rw [placedNew, placed]
      exact ⟨rfl, rfl⟩
    · rw [placedNew]
      rfl

theorem knows_of_grows {r' : Rebuild} {op : Op} {x w : VarId} {y z : Var} (moves : op.isTransfer)
    {dest : Location} (same : op = .transferTo dest) (atX : r'.graph.vars[x]? = some y)
    (atW : r'.graph.vars[w]? = some z) (alike : y.ty.Alike z.ty) (place : z.ty.place = some dest)
    (value : s.kept → s.after r'.graph w = s.after r'.graph x) :
    r'.graph.Knows s op [x] w := by
  refine ⟨⟨[y.ty], _, z, .cons ⟨y, atX, rfl⟩ .nil, Placement.infer_transfer moves y.ty, atW, alike⟩, ?_, ?_⟩
  · intro _ dest' same' z' atW'
    obtain rfl : z = z' := Option.some.inj (atW.symm.trans atW')
    rw [place, Placement.transferTo_inj (same.symm.trans same')]
  · intro kept
    rw [Placement.value_moved moves, value kept]

/-- A value where a transfer leads is noted as what the transfer gives, and stands for it. -/
theorem note_meets {n : Node} {tys : List Ty} {ty : Ty} {x : Var} (known : p.Operation d n tys ty x)
    (mirrors : r.Mirrors p d s) {l : Location} (place : n.place = some l) {w w' : VarId} {y z : Var}
    (atW : r.graph.vars[w]? = some y) (atW' : r.graph.vars[w']? = some z) (result : x.ty.Alike y.ty)
    (alike : y.ty.Alike z.ty) (there : z.ty.place = some l) (same : s.kept → s.after r.graph w' = s.after r.graph w)
    (value : s.kept → s.after r.graph w = s.before p n.output) :
    (do
      Rebuild.note (.transferTo l) [w] w'
      Rebuild.bind n.output w' : Rebuilding Unit).Meets r (fun _ => fails) fun _ r' =>
        r.Advances r' p d s (fun _ => False) n := by
  rw [meets_bind]
  refine (mirrors.note (knows_of_grows (Placement.isTransfer_transferTo l) rfl atW atW' alike there same)).mono ?_
  rintro _ r₁ ⟨mirrors₁, graph, image⟩
  rw [← graph] at atW'
  refine (mirrors₁.settle known atW' (fun _ => known.alike.symm.trans (result.trans alike))
    (fun _ => there.trans place.symm) fun held => ?_).mono
      fun _ _ settled => settled.1.after (Rebuild.keeps_of_image image)
  rw [graph, same held, value held]

variable {math : MathMode} {ts : List Tensor} {cells : Array Tensor} {kept : Prop}

theorem step_meets (sheds : Sheds d) (valid : p.Valid d) (tabled : p.Tabled c fails) {before after : List Node}
    {n : Node} (split : p.liveNodes = before ++ n :: after)
    (mirrors : r.Mirrors p d (p.stage math ts cells kept True True True))
    (reached : r.Reached p (fun _ => False) before) :
    (step c p n).Meets r (fun _ => fails) fun _ r' =>
      r.Advances r' p d (p.stage math ts cells kept True True True) (fun _ => False) n := by
  have live : n ∈ p.liveNodes := by
    rw [split]
    simp
  obtain ⟨tys, ty, x, known⟩ := valid.operation live
  have ready : ∀ v ∈ n.inputs, r.Ready p v := fun v reads =>
    reached.ready valid split (by simp) reads id
  have copied : (Rebuild.copy p n).Meets r (fun _ => fails) fun _ r' =>
      r.Advances r' p d (p.stage math ts cells kept True True True) (fun _ => False) n :=
    mirrors.copyAs trivial valid (fun _ fits => fits) live known ready
      fun _ alike places => sheds.congruent known.rule alike (places trivial)
  unfold step
  by_cases moves : n.op.isTransfer
  swap
  · have stands : n.op.isTransfer = false := by simpa using moves
    simp only [stands]
    exact copied
  cases place : n.place with
  | none =>
    simp only [moves]
    exact copied
  | some l =>
    obtain ⟨u, z, y, inputs, atU, atOutput, alike, -, moved⟩ :=
      valid.graph.transferred (valid.graph.live_mem live) moves
    obtain rfl : x = y := Option.some.inj (known.atOutput.symm.trans atOutput)
    obtain ⟨t, operand⟩ : ∃ t, tys = [t] := by
      have count := known.types.length_eq
      rw [inputs] at count
      exact List.length_eq_one_iff.mp count.symm
    have rule := known.rule
    rw [operand, place] at rule
    simp only [moves, inputs]
    rw [meets_bind]
    refine (mirrors.read (ready u (by simp [inputs])) fun y atV _ => valid.graph.leaf atV).mono ?_
    rintro w r₁ ⟨mirrors₁, grows₁, image⟩
    obtain ⟨z', y', atU', atW, alikeW, -⟩ := mirrors₁.image image
    obtain rfl : z = z' := Option.some.inj (atU.symm.trans atU')
    -- However the value is had, it is where the transfer leads.
    have settled : ∀ {r₂ : Rebuild} {w' : VarId} {z' : Var},
        r₂.Mirrors p d (p.stage math ts cells kept True True True) →
        r₁.Grows r₂ → r₂.graph.vars[w']? = some z' → y'.ty.Alike z'.ty → z'.ty.place = some l →
        (kept → (p.stage math ts cells kept True True True).after r₂.graph w' =
          (p.stage math ts cells kept True True True).after r₁.graph w) →
        (do
          Rebuild.note (.transferTo l) [w] w'
          Rebuild.bind n.output w' : Rebuilding Unit).Meets r₂ (fun _ => fails) fun _ r' =>
            r.Advances r' p d (p.stage math ts cells kept True True True) (fun _ => False) n := by
      intro r₂ w' z' mirrors₂ grows₂ atW' alike' place' value'
      have stays : (p.stage math ts cells kept True True True).after r₂.graph w =
          (p.stage math ts cells kept True True True).after r₁.graph w :=
        mirrors₁.graph.value_grows mirrors₂.graph grows₂.graph (mirrors₁.inRange image)
      refine (note_meets known mirrors₂ place (grows₂.graph.vars atW) atW' (alike.symm.trans (alikeW trivial)) alike'
        place' (fun held => (value' held).trans stays.symm) fun held => ?_).mono
          fun _ _ advances => advances.after (grows₁.trans grows₂).keeps
      refine stays.trans ((mirrors₁.value held image).trans ?_)
      exact (moved _ _).symm
    rw [meets_bind]
    refine (mirrors₁.known? (.transferTo l) [w]).mono ?_
    rintro found r' ⟨same, knows⟩
    rw [same]
    cases found with
    | some v =>
      obtain ⟨⟨tys', ty', z'', types', inferred', atV, alikeV⟩, placed, valueV⟩ := knows v rfl
      obtain rfl : [y'.ty] = tys' := Graph.Types.unique (.cons ⟨y', atW, rfl⟩ .nil) types'
      cases (Placement.infer_transfer (Placement.isTransfer_transferTo l) y'.ty).symm.trans inferred'
      refine settled mirrors₁ (.refl r₁) atV alikeV (placed trivial l rfl z'' atV) fun held => ?_
      rw [valueV held, Placement.value_moved (Placement.isTransfer_transferTo l)]
    | none =>
      simp only
      rw [meets_bind]
      refine (simplify_meets sheds mirrors₁ (tabled n live l place) moves rule atW).mono ?_
      rintro found r₂ ⟨mirrors₂, grows₂, simpler⟩
      cases found with
      | some v =>
        obtain ⟨⟨z'', atV, alikeV, placeV⟩, valueV⟩ := simpler v rfl
        exact settled mirrors₂ grows₂ atV alikeV placeV valueV
      | none =>
        simp only
        rw [meets_bind]
        have types : r₂.graph.Types [w] [y'.ty] := .cons ⟨y', grows₂.graph.vars atW, rfl⟩ .nil
        have same : t.Alike y'.ty := by
          have types₀ := known.types
          rw [inputs, operand] at types₀
          cases types₀ with
          | cons head _ =>
            obtain ⟨z₀, atZ, rfl⟩ := head
            obtain rfl : z = z₀ := Option.some.inj (atU.symm.trans atZ)
            exact alikeW trivial
        have rule' : d.op n.op [y'.ty] (some l) none := sheds.again moves rule same
        refine (mirrors₂.emit types (Placement.infer_transfer moves y'.ty) rule'
          fun _ _ computes => absurd (Op.isPointwise_of_isTransfer moves) computes).mono ?_
        rintro v r₃ ⟨mirrors₃, grows₃, -, -, -, -, ⟨z'', atV, placedV, -⟩, valueV⟩
        refine settled mirrors₃ (grows₂.trans grows₃) atV ?_ ?_ fun held => ?_
        · rw [placedV]
          exact ⟨rfl, rfl⟩
        · rw [placedV]
          rfl
        · rw [valueV]
          refine (Placement.value_moved moves _ _ w).trans ?_
          exact mirrors₁.graph.value_grows mirrors₂.graph grows₂.graph (mirrors₁.inRange image)

theorem rebuild_meets (sheds : Sheds d) (valid : p.Valid d) (tabled : p.Tabled c fails) (math : MathMode)
    (ts : List Tensor) (cells : Array Tensor) :
    match p.rebuild (step c p) with
    | .ok q => p.Rebuilt q d (p.stage math ts cells True True True True)
    | .error _ => fails :=
  Program.rebuild_meets valid (fun _ fits => fits) (fun asked => ⟨asked, trivial⟩) (fun _ _ => id)
    (step_meets sheds valid tabled)

/-- One round is a rebuild and a rebuild of its result. -/
theorem sweep_meets (sheds : Sheds d) (valid : p.Valid d) (tabled : p.Tabled c fails) (math : MathMode)
    (ts : List Tensor) (cells : Array Tensor) :
    match sweep c p with
    | .ok q => ∃ q', p.Rebuilt q' d (p.stage math ts cells True True True True) ∧
        q'.Rebuilt q d (q'.stage math ts cells True True True True)
    | .error _ => fails := by
  have rebuilt := rebuild_meets sheds valid tabled math ts cells
  unfold sweep
  cases swept : p.rebuild (step c p) with
  | error e =>
    rw [swept] at rebuilt
    exact rebuilt
  | ok q =>
    rw [swept] at rebuilt
    have pruned := Program.prune_meets rebuilt.valid sheds.congruent math ts cells True
    simp only [ok_bind]
    cases result : q.prune with
    | error e =>
      rw [result] at pruned
      exact pruned.elim
    | ok q' =>
      rw [result] at pruned
      exact ⟨q, rebuilt, pruned.1⟩

omit [BlockRoutine] in
/-- What a round keeps, all of them keep. -/
theorem settle_keeps {held : Program → Prop} (sweeps : ∀ q, held q → match sweep c q with
      | .ok q' => held q'
      | .error _ => fails) (rounds : Nat) (start : held p) :
    match settle c rounds p with
    | .ok q => held q
    | .error _ => fails := by
  induction rounds generalizing p with
  | zero => exact start
  | succ rounds ih =>
    have swept := sweeps p start
    unfold settle
    cases result : sweep c p with
    | error e =>
      rw [result] at swept
      exact swept
    | ok q =>
      rw [result] at swept
      simp only [ok_bind]
      by_cases stable : q.nodeCount = p.nodeCount ∧ q.transferCount = p.transferCount
      · rw [if_pos stable]
        exact swept
      · rw [if_neg stable]
        exact ih swept

omit [BlockRoutine] in
theorem run_keeps {held : Program → Prop} (sweeps : ∀ q, held q → match sweep c q with
      | .ok q' => held q'
      | .error _ => fails) (start : held p) :
    match run c p with
    | .ok q => held q
    | .error _ => fails := by
  have swept := sweeps p start
  unfold run
  cases result : sweep c p with
  | error e =>
    rw [result] at swept
    exact swept
  | ok q =>
    rw [result] at swept
    exact settle_keeps sweeps maxRounds swept

omit [BlockRoutine] in
/-- What every round that ends keeps holds in the end. -/
theorem keeps_of_run {held : Program → Prop} (sweeps : ∀ {q q' : Program}, held q → sweep c q = .ok q' → held q')
    (start : held p) {q : Program} (ran : run c p = .ok q) : held q := by
  have kept : match run c p with
      | .ok q => held q
      | .error _ => True := by
    refine run_keeps (fun q there => ?_) start
    cases swept : sweep c q with
    | error e => trivial
    | ok q' => exact sweeps there swept
  rw [ran] at kept
  exact kept

/-- The program without needless transfers is a program that computes the same. -/
theorem run_meets (c : Context) (valid : p.Valid (.placed c.target scope)) (math : MathMode)
    (ts : List Tensor) (cells : Array Tensor) :
    match run c p with
    | .ok q => p.Refines q (.placed c.target scope) math ts cells True
    | .error _ => ¬ c.Plain := by
  refine run_keeps (fun q refines => ?_) (.refl valid math ts cells True)
  have swept := sweep_meets (sheds_placed c.target scope) refines.valid refines.valid.tabled math ts cells
  cases result : sweep c q with
  | error e =>
    rw [result] at swept
    exact swept
  | ok q' =>
    rw [result] at swept
    obtain ⟨q₁, rebuilt, pruned⟩ := swept
    exact (refines.trans rebuilt.refines).trans pruned.refines

end Transfers

end TensorGraph
