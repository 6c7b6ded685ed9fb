import TensorGraph.Proofs.Pass.Rebuilt
import TensorGraph.Proofs.Program.Extents

/-! Programs evaluated directly: the operations that the results need, one after the other in the order of their
creation, on host tensors and with the reference kernels. -/
namespace TensorGraph

open Checked

namespace Program

/-- The tensors of the variables that have one so far. -/
abbrev Known := VarId → Option Tensor

/-- The tensor of a variable. Every variable has one before it is read. -/
def Known.get (known : Known) (v : VarId) : Except Error Tensor :=
  match known v with
  | some t => .ok t
  | none => .error .crash

/-- What the leaves are bound to. -/
def leafValues (p : Program) (ts : List Tensor) (cells : Array Tensor) : Known := fun v =>
  p.graph.vars[v]?.bind fun x => x.origin.value? (p.bind ts cells) v

/-- A sum of two vectors, a sum along an axis of a matrix, and the first sum with its sign changed. -/
def lateNegation : Program :=
  let first := ((Graph.empty .f32).input { kind := .i32, rank := 1 } none).1
  let both := (first.input { kind := .i32, rank := 1 } none).1
  let leaves := (both.input { kind := .i64, rank := 2 } none).1
  let added := (leaves.apply (.binary .add) [0, 1]).1
  let sums := (added.apply (.reduce .sum (some 1)) [2]).1
  ⟨(sums.apply (.unary .neg) [3]).1, [0, 1, 2], [4, 5], []⟩

theorem built_lateNegation : lateNegation.graph.Built :=
  .apply (.apply (.apply (.input (.input (.input (.empty _) _ _) _ _) _ _) _ _) _ _) _ _

/-- Two vectors of different lengths, and a matrix without elements that has more rows than can be stored. -/
def disagreeing : List Tensor :=
  [⟨[2], ⟨.i32, #[5, 6]⟩, rfl, rfl⟩, ⟨[3], ⟨.i32, #[5, 6, 7]⟩, rfl, rfl⟩, ⟨[2305843009213693952, 0], ⟨.i64, #[]⟩, rfl, rfl⟩]

variable [BlockRoutine]

/-- One operation with some kernel options: its kernel runs on the tensors of its operands. -/
def Known.next (math : MathMode) (known : Known) (n : Node) : Except Error Known := do
  let args ← n.inputs.mapM known.get
  let t ← n.op.eval math args
  return Function.update known n.output (some t)

/-- The outputs of a program for some arguments and persistent values. -/
def evaluate (p : Program) (ts : List Tensor) (cells : Array Tensor) : Except Error (List Tensor) := do
  let known ← p.liveNodes.foldlM (Known.next {}) (p.leafValues ts cells)
  p.outputs.mapM known.get

/-- The outputs of a program and the new values of its updates, with some kernel options. -/
def results (p : Program) (math : MathMode) (ts : List Tensor) (cells : Array Tensor) :
    Except Error (List Tensor × List Tensor) := do
  let known ← p.liveNodes.foldlM (Known.next math) (p.leafValues ts cells)
  let outputs ← p.outputs.mapM known.get
  let values ← (p.updates.map Prod.snd).mapM known.get
  return (outputs, values)

variable {p : Program} {d : Discipline} {math : MathMode} {ts : List Tensor} {cells : Array Tensor} {known : Known}

omit [BlockRoutine] in
theorem Known.get_eq_ok {v : VarId} {t : Tensor} : known.get v = .ok t ↔ known v = some t := by
  unfold get
  cases known v <;> simp

theorem leafValues_leaf {v : VarId} {x : Var} (atV : p.graph.vars[v]? = some x) (isLeaf : x.isLeaf) (math : MathMode) :
    p.leafValues ts cells v = p.value math ts cells v := by
  rw [value, Graph.value_leaf atV isLeaf, leafValues, atV]
  rfl

/-- A leaf that is read has a value. -/
theorem Valid.leaf_value (valid : p.Valid d) (takes : p.Takes ts) {v : VarId} {x : Var}
    (atV : p.graph.vars[v]? = some x) (isLeaf : x.isLeaf) (read : v ∈ p.roots ∨ ∃ n ∈ p.liveNodes, v ∈ n.inputs)
    (math : MathMode) : (p.value math ts cells v).isSome := by
  rw [value, Graph.value_leaf atV isLeaf]
  cases origin : x.origin with
  | output i => simp [Var.isLeaf, origin] at isLeaf
  | constant t => rfl
  | shared c => rfl
  | input =>
    have listed := valid.bound read atV (by simp [Var.isInput, origin])
    obtain ⟨i, found⟩ := Option.isSome_iff_exists.mp (List.isSome_idxOf?.mpr listed)
    have inRange : i < p.inputs.length := by
      obtain ⟨inRange, -⟩ := List.idxOf?_eq_some_iff.mp found
      exact inRange
    have bound : i < ts.length := takes.length_eq ▸ inRange
    simp [Origin.value?, bind, found, bound]

section Evaluation

/-- What is known after some operations: the values of the leaves and of the results so far, and all of these have
one. -/
structure Knows (p : Program) (math : MathMode) (ts : List Tensor) (cells : Array Tensor) (done : List Node) (known : Known) : Prop where
  leaf : ∀ {v : VarId} {x : Var}, p.graph.vars[v]? = some x → x.isLeaf → known v = p.value math ts cells v
  result : ∀ n ∈ done, (p.value math ts cells n.output).isSome ∧ known n.output = p.value math ts cells n.output

variable {done rest : List Node}

/-- What is read is known, if the operation that made it is done. -/
theorem Knows.read (knows : p.Knows math ts cells done known) (valid : p.Valid d) (takes : p.Takes ts) {v : VarId}
    (inRange : v < p.graph.vars.size) (read : v ∈ p.roots ∨ ∃ n ∈ p.liveNodes, v ∈ n.inputs)
    (made : ∀ m, p.graph.producer? v = some m → m ∈ done) :
    (p.value math ts cells v).isSome ∧ known v = p.value math ts cells v := by
  have atV := Array.getElem?_eq_getElem inRange
  rcases valid.graph.leaf_or_output atV with isLeaf | ⟨i, n, at_, rfl⟩
  · exact ⟨valid.leaf_value takes atV isLeaf read math, knows.leaf atV isLeaf⟩
  · exact knows.result n (made n (valid.graph.producer?_output at_))

/-- What is known of some variables is read, and is their values. -/
theorem Known.gets (known : Known) {vs : List VarId}
    (each : ∀ v ∈ vs, (p.value math ts cells v).isSome ∧ known v = p.value math ts cells v) :
    ∃ args, vs.mapM known.get = .ok args ∧ vs.mapM (p.value math ts cells) = some args := by
  obtain ⟨args, values⟩ := exists_mapM fun v member => Option.isSome_iff_exists.mp (each v member).1
  refine ⟨args, mapM_eq_ok.mpr ?_, values⟩
  rw [← mapM_congr fun v member => (each v member).2] at values
  exact (mapM_eq_some.mp values).imp fun _ _ => Known.get_eq_ok.mpr

/-- One operation: its value is known after it, or the extents of its operands do not agree or are too large. -/
theorem Knows.node (knows : p.Knows math ts cells done known) (valid : p.Valid d) (takes : p.Takes ts)
    (typed : ∀ c, d.cell c → c.Typed cells) {n : Node} (split : p.liveNodes = done ++ n :: rest) :
    match known.next math n with
    | .ok known' => p.Knows math ts cells (done ++ [n]) known'
    | .error e => p.BreaksOff math ts cells e ∧ p.value math ts cells n.output = none := by
  have live : n ∈ p.liveNodes := by simp [split]
  have at_ := valid.graph.live_mem live
  obtain ⟨tys, ty, y, operation⟩ := valid.operation live
  obtain ⟨args, read, values⟩ := Known.gets known fun v reads =>
    knows.read valid takes (operation.types.inRange v reads) (.inr ⟨n, live, reads⟩)
      fun m produced => valid.graph.live_before split reads produced
  have output : p.value math ts cells n.output = (n.op.eval math args).toOption := by
    rw [value, valid.graph.value_output at_]
    exact congrArg (Option.bind · _) values
  have binds := valid.binds takes typed
  have hasTypes := operation.types.hasType (fun v _ x t atV found => valid.graph.value_hasType binds atV found) values
  unfold Known.next
  rw [read, ok_bind]
  rcases Op.eval_typed operation.inferred hasTypes math with ⟨t, -, ran, -⟩ | ⟨e, refused, ran, -⟩
  · rw [ran, ok_bind]
    rw [ran] at output
    refine ⟨fun {v x} atV isLeaf => ?_, fun m member => ?_⟩
    · have other : v ≠ n.output := by
        rintro rfl
        obtain rfl : x = y := Option.some.inj (atV.symm.trans operation.atOutput)
        exact operation.notLeaf isLeaf
      rw [Function.update_of_ne other]
      exact knows.leaf atV isLeaf
    · by_cases same : m.output = n.output
      · rw [same, Function.update_self, output]
        exact ⟨rfl, rfl⟩
      · rw [Function.update_of_ne same]
        refine knows.result m ((List.mem_append.mp member).resolve_right fun last => same ?_)
        rw [List.mem_singleton.mp last]
  · rw [ran]
    rw [ran] at output
    exact ⟨breaksOff_of_node live values refused, output⟩

/-- All operations. -/
theorem Knows.nodes (knows : p.Knows math ts cells done known) (valid : p.Valid d) (takes : p.Takes ts)
    (typed : ∀ c, d.cell c → c.Typed cells) (split : p.liveNodes = done ++ rest) :
    match rest.foldlM (Known.next math) known with
    | .ok known' => p.Knows math ts cells p.liveNodes known'
    | .error e => p.BreaksOff math ts cells e ∧ ∃ n ∈ p.liveNodes, p.value math ts cells n.output = none := by
  induction rest generalizing done known with
  | nil =>
    rw [List.foldlM_nil, pure_eq]
    simp only
    rwa [split, List.append_nil]
  | cons n rest ih =>
    have node := knows.node valid takes typed split
    rw [List.foldlM_cons]
    cases ran : known.next math n with
    | error e =>
      rw [ran] at node
      exact ⟨node.1, n, by simp [split], node.2⟩
    | ok known' =>
      rw [ran] at node
      rw [ok_bind]
      exact ih node (by rw [split, List.append_assoc]; rfl)

/-- All operations of a program: the values of the roots are known, or one of them has none. -/
theorem nodes_spec (valid : p.Valid d) (takes : p.Takes ts) (typed : ∀ c, d.cell c → c.Typed cells) (math : MathMode) :
    match p.liveNodes.foldlM (Known.next math) (p.leafValues ts cells) with
    | .ok known => ∀ v ∈ p.roots, (p.value math ts cells v).isSome ∧ known v = p.value math ts cells v
    | .error e => p.BreaksOff math ts cells e ∧ ∃ v ∈ p.roots, p.value math ts cells v = none := by
  have start : p.Knows math ts cells [] (p.leafValues ts cells) :=
    ⟨fun atV isLeaf => leafValues_leaf atV isLeaf math, fun n none => by cases none⟩
  have nodes := start.nodes valid takes typed (List.nil_append p.liveNodes).symm
  cases ran : p.liveNodes.foldlM (Known.next math) (p.leafValues ts cells) with
  | error e =>
    rw [ran] at nodes
    obtain ⟨breaks, n, live, without⟩ := nodes
    exact ⟨breaks, valid.graph.root_without live without⟩
  | ok known =>
    rw [ran] at nodes
    exact fun v root =>
      nodes.read valid takes (valid.roots v root) (.inl root) fun m produced => valid.graph.root_producer root produced

/-- The evaluation gives the values of the outputs, or breaks off: then one of the results has no value. -/
theorem evaluate_spec (valid : p.Valid d) (takes : p.Takes ts) (typed : ∀ c, d.cell c → c.Typed cells) :
    match p.evaluate ts cells with
    | .ok us => List.Forall₂ (fun v t => p.value {} ts cells v = some t) p.outputs us ∧
        ∀ v ∈ p.roots, (p.value {} ts cells v).isSome
    | .error e => p.BreaksOff {} ts cells e ∧ ∃ v ∈ p.roots, p.value {} ts cells v = none := by
  have nodes := nodes_spec valid takes typed {}
  unfold evaluate
  cases ran : p.liveNodes.foldlM (Known.next {}) (p.leafValues ts cells) with
  | error e =>
    rw [ran] at nodes
    exact nodes
  | ok known =>
    rw [ran] at nodes
    obtain ⟨us, read, values⟩ := Known.gets known fun v (output : v ∈ p.outputs) =>
      nodes v (List.mem_append_left _ output)
    rw [ok_bind, read]
    exact ⟨mapM_eq_some.mp values, fun v root => (nodes v root).1⟩

/-- The results are the values of the roots, or the evaluation breaks off and one of the roots has no value. -/
theorem results_spec (valid : p.Valid d) (takes : p.Takes ts) (typed : ∀ c, d.cell c → c.Typed cells)
    (math : MathMode) :
    match p.results math ts cells with
    | .ok (outputs, values) => p.roots.map (p.value math ts cells) = (outputs ++ values).map some ∧
        outputs.length = p.outputs.length
    | .error e => p.BreaksOff math ts cells e ∧ ∃ v ∈ p.roots, p.value math ts cells v = none := by
  have nodes := nodes_spec valid takes typed math
  unfold results
  cases ran : p.liveNodes.foldlM (Known.next math) (p.leafValues ts cells) with
  | error e =>
    rw [ran] at nodes
    exact nodes
  | ok known =>
    rw [ran] at nodes
    obtain ⟨outputs, readOutputs, first⟩ := Known.gets known fun v (output : v ∈ p.outputs) =>
      nodes v (List.mem_append_left _ output)
    obtain ⟨values, readValues, second⟩ := Known.gets known fun v (value : v ∈ p.updates.map Prod.snd) =>
      nodes v (List.mem_append_right _ value)
    rw [ok_bind, readOutputs, ok_bind, readValues, ok_bind]
    refine ⟨?_, (mapM_eq_some.mp first).length_eq.symm⟩
    rw [roots, List.map_append, List.map_append, map_of_mapM first, map_of_mapM second]

/-- Where sizes of constants overflow, an evaluation breaks off. -/
theorem Overflows.results_fail (overflows : p.Overflows) (valid : p.Valid d) (takes : p.Takes ts)
    (typed : ∀ c, d.cell c → c.Typed cells) (math : MathMode) :
    ∃ e, p.BreaksOff math ts cells e ∧ p.results math ts cells = .error e := by
  have spec := results_spec valid takes typed math
  cases ran : p.results math ts cells with
  | error e =>
    rw [ran] at spec
    exact ⟨e, spec.1, rfl⟩
  | ok given =>
    rw [ran] at spec
    have none : none ∈ p.roots.map (p.value math ts cells) := by
      obtain ⟨v, root, without⟩ := overflows.root_without valid (valid.binds takes typed) math
      exact List.mem_map.mpr ⟨v, root, without⟩
    rw [spec.1] at none
    simp at none

end Evaluation

end Program

end TensorGraph
