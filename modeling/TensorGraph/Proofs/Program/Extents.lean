import TensorGraph.Proofs.Program.Valid

/-! Extents that are known before a program runs: those of what is computed from constants alone. They do not depend on
elements, so a rebuild that exchanges operands or cancels signs keeps them whatever it does to the elements. -/
namespace TensorGraph

open Checked

namespace Graph

/-- The value of a constant. -/
def constant? (g : Graph) (v : VarId) : Option Tensor := g.vars[v]?.bind Var.constant?

/-- The extents of a variable that is computed from constants alone. There are none where those of some operands do not
agree or are too large. -/
def fixedShape? (g : Graph) (v : VarId) : Option Shape :=
  match g.vars[v]? with
  | none => none
  | some x =>
    match x.origin with
    | .constant t => some t.shape
    | .output i =>
      match g.nodes[i]? with
      | none => none
      | some n => do
        let shapes ← n.inputs.mapM fun u => if _ : u < v then fixedShape? g u else none
        (n.op.resultShape shapes).toOption
    | _ => none
termination_by v

variable {g g' : Graph} {d d' : Discipline} {v : VarId} {x : Var} {s : Shape}

theorem fixedShape?_leaf (atV : g.vars[v]? = some x) (isLeaf : x.isLeaf) :
    g.fixedShape? v = x.constant?.map Tensor.shape := by
  rw [fixedShape?, atV]
  cases origin : x.origin with
  | output i => simp [Var.isLeaf, origin] at isLeaf
  | _ => simp [origin, Var.constant?]

theorem Sound.fixedShape?_output (sound : g.Sound d) {i : NodeId} {n : Node} (at_ : g.nodes[i]? = some n) :
    g.fixedShape? n.output =
      (n.inputs.mapM g.fixedShape?).bind fun shapes => (n.op.resultShape shapes).toOption := by
  obtain ⟨x, atOutput, origin⟩ := (sound.node at_).output
  have same : (n.inputs.mapM fun u => if _ : u < n.output then g.fixedShape? u else none) =
      n.inputs.mapM g.fixedShape? := by
    refine mapM_congr fun u member => ?_
    rw [dif_pos ((sound.node at_).reads u member)]
  rw [fixedShape?, atOutput]
  simp only [origin, at_, same]
  rfl

/-- What is added to a graph later does not change known extents. -/
theorem Sound.fixedShape?_grows (sound : g.Sound d) (sound' : g'.Sound d') (grows : g.Grows g')
    (inRange : v < g.vars.size) : g'.fixedShape? v = g.fixedShape? v := by
  induction v using Nat.strong_induction_on with
  | _ v ih =>
    obtain ⟨x, atV⟩ : ∃ x, g.vars[v]? = some x := ⟨_, Array.getElem?_eq_getElem inRange⟩
    rcases sound.leaf_or_output atV with isLeaf | ⟨i, n, at_, rfl⟩
    · rw [fixedShape?_leaf atV isLeaf, fixedShape?_leaf (grows.vars atV) isLeaf]
    · rw [sound.fixedShape?_output at_, sound'.fixedShape?_output (grows.nodes at_)]
      refine congrArg₂ _ (mapM_congr fun u member => ?_) rfl
      have before := (sound.node at_).reads u member
      exact ih u before (Nat.lt_trans before inRange)

/-- There may be memory for what has known extents. -/
theorem Sound.fits_of_fixedShape (sound : g.Sound d) (known : g.fixedShape? v = some s) : s.fits := by
  cases atV : g.vars[v]? with
  | none =>
    rw [fixedShape?, atV] at known
    cases known
  | some x =>
    rcases sound.leaf_or_output atV with isLeaf | ⟨i, n, at_, rfl⟩
    · rw [fixedShape?_leaf atV isLeaf] at known
      obtain ⟨t, -, rfl⟩ := Option.map_eq_some_iff.mp known
      exact t.fits
    · rw [sound.fixedShape?_output at_] at known
      obtain ⟨shapes, -, shaped⟩ := Option.bind_eq_some_iff.mp known
      cases result : n.op.resultShape shapes with
      | error e =>
        rw [result] at shaped
        cases shaped
      | ok s' =>
        rw [result] at shaped
        cases shaped
        exact (Op.resultShape_eq_ok.mp result).2.2

variable [BlockRoutine] {math : Place → MathMode} {b : Binding}

theorem values_of_fixedShapes {vs : List VarId} {shapes : List Shape} (known : vs.mapM g.fixedShape? = some shapes)
    (each : ∀ u ∈ vs, ∀ s, g.fixedShape? u = some s → ∃ t, g.value math b u = some t ∧ t.shape = s) :
    ∃ ts, vs.mapM (g.value math b) = some ts ∧ ts.map Tensor.shape = shapes := by
  replace known := mapM_eq_some.mp known
  induction known with
  | nil => exact ⟨[], rfl, rfl⟩
  | @cons u s vs shapes head tail ih =>
    obtain ⟨t, value, rfl⟩ := each u (by simp) s head
    obtain ⟨ts, values, rfl⟩ := ih fun u member => each u (List.mem_cons_of_mem _ member)
    exact ⟨t :: ts, by simp [value, values], rfl⟩

/-- A variable with known extents has a value of these extents, whatever the other leaves are bound to. -/
theorem Sound.value_of_fixedShape (sound : g.Sound d) (binds : g.Binds b) (known : g.fixedShape? v = some s) :
    ∃ t, g.value math b v = some t ∧ t.shape = s := by
  induction v using Nat.strong_induction_on generalizing s with
  | _ v ih =>
    cases atV : g.vars[v]? with
    | none =>
      rw [fixedShape?, atV] at known
      cases known
    | some x =>
      rcases sound.leaf_or_output atV with isLeaf | ⟨i, n, at_, rfl⟩
      · rw [fixedShape?_leaf atV isLeaf] at known
        obtain ⟨t, isConstant, rfl⟩ := Option.map_eq_some_iff.mp known
        rw [value_leaf atV isLeaf]
        cases origin : x.origin <;> simp_all [Var.constant?, Origin.value?]
      · rw [sound.fixedShape?_output at_] at known
        obtain ⟨shapes, operands, shaped⟩ := Option.bind_eq_some_iff.mp known
        obtain ⟨-, -, reads, tys, ty, -, types, inferred, -⟩ := sound.node at_
        obtain ⟨ts, values, rfl⟩ := values_of_fixedShapes operands fun u member s => ih u (reads u member)
        have typed := types.hasType (fun u _ y t atU => sound.value_hasType binds atU) values
        rw [sound.value_output at_, values, Option.bind_some]
        rcases Op.eval_typed inferred typed (math n.place) with ⟨t, result, ran, -⟩ | ⟨e, refused, -⟩
        · rw [result] at shaped
          exact ⟨t, by rw [ran]; rfl, Option.some.inj shaped⟩
        · rw [refused] at shaped
          cases shaped

end Graph

/-- An operation on constants, or on what is computed from constants, has a result whose elements cannot be counted, or
that no memory has room for. -/
def Program.Overflows (p : Program) : Prop :=
  ∃ n ∈ p.liveNodes, ∃ shapes, n.inputs.mapM p.graph.fixedShape? = some shapes ∧
    n.op.resultShape shapes = .error .crash

/-- The product of two matrices of integers without elements, which has more elements than can be counted. -/
def Program.hugeProduct : Program :=
  let column := ((Graph.empty .f32).constant ⟨[4294967296, 0], ⟨.i32, #[]⟩, rfl, rfl⟩).1
  let both := (column.constant ⟨[0, 4294967296], ⟨.i32, #[]⟩, rfl, rfl⟩).1
  ⟨(both.apply .matmul [0, 1]).1, [], [2], []⟩

theorem Program.built_hugeProduct : hugeProduct.graph.Built := .apply (.constant (.constant (.empty _) _) _) _ _

/-- Then some result has no value, whatever the program is bound to. -/
theorem Program.Overflows.root_without [BlockRoutine] {p : Program} (overflows : p.Overflows) {d : Discipline}
    (valid : p.Valid d) {ts : List Tensor} {cells : Array Tensor} (binds : p.graph.Binds (p.bind ts cells))
    (math : MathMode) : ∃ v ∈ p.roots, p.value math ts cells v = none := by
  obtain ⟨n, live, shapes, operands, crash⟩ := overflows
  have at_ := valid.graph.live_mem live
  obtain ⟨-, -, -, tys, ty, -, types, inferred, -⟩ := valid.graph.node at_
  obtain ⟨us, values, rfl⟩ := Graph.values_of_fixedShapes operands fun u _ s => valid.graph.value_of_fixedShape binds
  have typed := types.hasType (fun u _ y t atU => valid.graph.value_hasType binds atU) values
  refine valid.graph.root_without live ?_
  rw [valid.graph.value_output at_, values, Option.bind_some]
  rcases Op.eval_typed inferred typed math with ⟨t, result, -⟩ | ⟨e, -, ran, -⟩
  · cases crash.symm.trans result
  · rw [ran]
    rfl

/-- Where every operation reads something that is no constant, none has known extents. -/
theorem Program.not_overflows {p : Program} {d : Discipline} (valid : p.Valid d)
    (varying : ∀ n ∈ p.liveNodes, ∃ v ∈ n.inputs, p.graph.constant? v = none) : ¬ p.Overflows := by
  have unknown : ∀ (w : VarId), ∀ n ∈ p.liveNodes, n.output = w → n.inputs.mapM p.graph.fixedShape? = none := by
    intro w
    induction w using Nat.strong_induction_on with
    | _ w ih =>
      rintro n live rfl
      obtain ⟨v, reads, varies⟩ := varying n live
      have node := valid.graph.node (valid.graph.live_mem live)
      obtain ⟨-, -, before, tys, ty, -, types, -⟩ := node
      have atV := Array.getElem?_eq_getElem (types.inRange v reads)
      suffices unfixed : p.graph.fixedShape? v = none by
        rw [Option.eq_none_iff_forall_ne_some]
        intro shapes operands
        obtain ⟨s, -, known⟩ := partner (mapM_eq_some.mp operands) reads
        cases unfixed.symm.trans known
      rcases valid.graph.leaf_or_output atV with isLeaf | ⟨i, m, at_, rfl⟩
      · rw [Graph.constant?, atV, Option.bind_some] at varies
        rw [Graph.fixedShape?_leaf atV isLeaf, varies]
        rfl
      · have liveM := valid.graph.live_producer live reads (valid.graph.producer?_output at_)
        rw [valid.graph.fixedShape?_output at_, ih _ (before _ reads) m liveM rfl]
        rfl
  rintro ⟨n, live, shapes, operands, -⟩
  cases (unknown _ n live rfl).symm.trans operands

end TensorGraph
