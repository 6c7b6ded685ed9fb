import TensorGraph.Proofs.Graph.Sound
import TensorGraph.Proofs.Kernel.Evaluation

/-! The value of a variable: what its operation gives for the values of its operands, down to the
leaves. It does not depend on the order in which operations run, nor on what is added to the graph
later. -/
namespace TensorGraph

open Checked

/-- The tensors that leaves are bound to. -/
structure Binding where
  input : VarId → Option Tensor
  cells : Array Tensor

/-- The value that a leaf has. -/
def Origin.value? (b : Binding) (v : VarId) : Origin → Option Tensor
  | .input => b.input v
  | .constant t => some t
  | .shared c => some (b.cells.getD c.id default)
  | .output _ => none

namespace Graph

variable [BlockRoutine]

/-- The value of a variable, with the kernel options of each place. A variable without one has a
leaf that is not bound, or an operation whose extents do not agree. -/
def value (g : Graph) (math : Place → MathMode) (b : Binding) (v : VarId) : Option Tensor :=
  match g.vars[v]? with
  | none => none
  | some x =>
    match x.origin with
    | .output i =>
      match g.nodes[i]? with
      | none => none
      | some n => do
        let ts ← n.inputs.mapM fun u => if _ : u < v then value g math b u else none
        (n.op.eval (math n.place) ts).toOption
    | origin => origin.value? b v
termination_by v

variable {g : Graph} {d : Discipline} {math : Place → MathMode} {b : Binding}

theorem value_leaf {v : VarId} {x : Var} (atV : g.vars[v]? = some x) (isLeaf : x.isLeaf) :
    g.value math b v = x.origin.value? b v := by
  rw [value, atV]
  cases origin : x.origin with
  | output i => simp [Var.isLeaf, origin] at isLeaf
  | input => simp [origin]
  | constant t => simp [origin]
  | shared c => simp [origin]

/-- The value of an output is the operation applied to the values of its operands. -/
theorem Sound.value_output (sound : g.Sound d) {i : NodeId} {n : Node}
    (at_ : g.nodes[i]? = some n) :
    g.value math b n.output =
      (n.inputs.mapM (g.value math b)).bind fun ts => (n.op.eval (math n.place) ts).toOption := by
  obtain ⟨x, atOutput, origin⟩ := (sound.node at_).output
  have same : (n.inputs.mapM fun u => if _ : u < n.output then g.value math b u else none) =
      n.inputs.mapM (g.value math b) := by
    refine mapM_congr fun u member => ?_
    rw [dif_pos ((sound.node at_).reads u member)]
  rw [value, atOutput]
  simp only [origin, at_, same]
  rfl

omit [BlockRoutine] in
theorem Sound.leaf_or_output (sound : g.Sound d) {v : VarId} {x : Var}
    (atV : g.vars[v]? = some x) :
    x.isLeaf ∨ ∃ (i : NodeId) (n : Node), g.nodes[i]? = some n ∧ n.output = v := by
  cases origin : x.origin with
  | output i =>
    obtain ⟨n, at_, output⟩ := sound.produced atV origin
    exact .inr ⟨i, n, at_, output⟩
  | _ => exact .inl (by simp [Var.isLeaf, origin])

/-- What is added to a graph later does not change the values of its variables. -/
theorem Sound.value_grows (sound : g.Sound d) {g' : Graph} {d' : Discipline} (sound' : g'.Sound d')
    (grows : g.Grows g') {v : VarId} (inRange : v < g.vars.size) :
    g'.value math b v = g.value math b v := by
  induction v using Nat.strong_induction_on with
  | _ v ih =>
    obtain ⟨x, atV⟩ : ∃ x, g.vars[v]? = some x := ⟨_, Array.getElem?_eq_getElem inRange⟩
    rcases sound.leaf_or_output atV with isLeaf | ⟨i, n, at_, rfl⟩
    · rw [value_leaf atV isLeaf, value_leaf (grows.vars atV) isLeaf]
    · rw [sound.value_output at_, sound'.value_output (grows.nodes at_)]
      refine congrArg₂ _ ?_ rfl
      refine mapM_congr fun u member => ?_
      have before := (sound.node at_).reads u member
      exact ih u before (Nat.lt_trans before inRange)

/-- The bound tensors have the types of their leaves. -/
structure Binds (g : Graph) (b : Binding) : Prop where
  input : ∀ {v : VarId} {x : Var} {t : Tensor}, g.vars[v]? = some x → x.isInput →
    b.input v = some t → t.HasType x.ty
  cell : ∀ {v : VarId} {x : Var} {c : Cell}, g.vars[v]? = some x → x.origin = .shared c →
    (b.cells.getD c.id default).HasType x.ty

/-- The values of the operands of an operation have the types that inference went by. -/
theorem Types.hasType {vs : List VarId} {tys : List Ty} {ts : List Tensor} (types : g.Types vs tys)
    (typed : ∀ v ∈ vs, ∀ x t, g.vars[v]? = some x → g.value math b v = some t → t.HasType x.ty)
    (values : vs.mapM (g.value math b) = some ts) : List.Forall₂ Tensor.HasType ts tys := by
  have each := mapM_eq_some.mp values
  clear values
  induction types generalizing ts with
  | nil =>
    cases each
    exact .nil
  | @cons v ty vs tys head tail ih =>
    obtain ⟨x, atV, rfl⟩ := head
    cases each with
    | cons here rest =>
      refine .cons (typed v (by simp) x _ atV here) ?_
      exact ih (fun u member => typed u (List.mem_cons_of_mem _ member)) rest

/-- Values have the types of their variables. -/
theorem Sound.value_hasType (sound : g.Sound d) (binds : g.Binds b) {v : VarId} {x : Var}
    {t : Tensor} (atV : g.vars[v]? = some x) (value : g.value math b v = some t) :
    t.HasType x.ty := by
  induction v using Nat.strong_induction_on generalizing x t with
  | _ v ih =>
    rcases sound.leaf_or_output atV with isLeaf | ⟨i, n, at_, rfl⟩
    · rw [value_leaf atV isLeaf] at value
      have fits := sound.leaf atV
      unfold Var.Fits at fits
      cases origin : x.origin with
      | input =>
        rw [origin] at value
        exact binds.input atV (by simp [Var.isInput, origin]) value
      | constant u =>
        rw [origin] at value fits
        obtain rfl : u = t := Option.some.inj value
        exact fits.2
      | shared c =>
        rw [origin] at value
        obtain rfl : b.cells.getD c.id default = t := Option.some.inj value
        exact binds.cell atV origin
      | output i => simp [Var.isLeaf, origin] at isLeaf
    · obtain ⟨-, -, reads, tys, ty, y, types, inferred, atOutput, placed, -⟩ := sound.node at_
      obtain rfl : x = y := Option.some.inj (atV.symm.trans atOutput)
      rw [sound.value_output at_] at value
      obtain ⟨ts, operands, evaluated⟩ := Option.bind_eq_some_iff.mp value
      have typed := types.hasType (fun u member y w atU => ih u (reads u member) atU) operands
      rw [placed]
      rcases Op.eval_typed inferred typed (math n.place) with ⟨s, -, ran, has⟩ | ⟨e, -, ran, -⟩
      · rw [ran] at evaluated
        cases evaluated
        exact has
      · rw [ran] at evaluated
        cases evaluated

end Graph

end TensorGraph
