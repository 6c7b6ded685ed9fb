import TensorGraph.Proofs.Kernel.Exchange
import TensorGraph.Proofs.Kernel.Pointwise

/-! Elementwise operations on tensors whose shapes go with results of one shape: each of them has that
shape or no axes. Such an operation has a value, which goes with results of that shape again, and each
place of it is computed from one place of every operand. -/
namespace TensorGraph

open Checked

namespace Op

theorem isFusable_cases {op : Op} (fusable : op.isFusable) :
    (∃ f, op = .unary f) ∨ (∃ f, op = .binary f) ∨ ∃ e, op = .fused e := by
  cases op with
  | unary f => exact .inl ⟨f, rfl⟩
  | binary f => exact .inr (.inl ⟨f, rfl⟩)
  | fused e => exact .inr (.inr ⟨e, rfl⟩)
  | _ => exact absurd fusable Bool.false_ne_true

theorem computes_of_fusable {op : Op} (fusable : op.isFusable) : ¬ op.isTransfer := by
  cases op <;> first | exact Bool.false_ne_true | exact absurd fusable Bool.false_ne_true

/-- An elementwise operation computes in the kind of its operands. -/
theorem resultKind_of_fusable {op : Op} (fusable : op.isFusable) (k : Kind) :
    op.resultKind k = k := by
  cases op with
  | fused e => rfl
  | unary f => rfl
  | binary f => rfl
  | _ => exact absurd fusable Bool.false_ne_true

end Op

namespace Shape

/-- Shapes that go with results of one shape go with each other. -/
theorem broadcast_of_fits (name : String) {a b s : Shape} (left : a = s ∨ a = []) (right : b = s ∨ b = []) :
    ∃ joined, broadcast name a b = .ok joined ∧ (joined = s ∨ joined = []) ∧
      (joined = a ∨ joined = b) := by
  unfold broadcast
  by_cases first : a = b ∨ b = []
  · exact ⟨a, if_pos first, left, .inl rfl⟩
  · rw [if_neg first]
    rw [not_or] at first
    have scalar : a = [] := by
      rcases left with rfl | none
      · exact absurd (right.resolve_right first.2).symm first.1
      · exact none
    exact ⟨b, if_pos scalar, right, .inr rfl⟩

theorem broadcast_of_some {name : String} {a b s joined : Shape} (left : a = s ∨ a = [])
    (right : b = s ∨ b = []) (whole : a = s ∨ b = s) (ran : broadcast name a b = .ok joined) :
    joined = s := by
  unfold broadcast at ran
  by_cases first : a = b ∨ b = []
  · rw [if_pos first] at ran
    cases ran
    rcases whole with same | same
    · exact same
    · rcases first with equal | none
      · exact equal.trans same
      · rcases left with same' | none'
        · exact same'
        · exact (none'.trans none.symm).trans same
  · rw [if_neg first] at ran
    rw [not_or] at first
    have same : b = s := right.resolve_right first.2
    have none : a = [] := left.resolve_left fun equal => first.1 (equal.trans same.symm)
    rw [if_pos none] at ran
    cases ran
    exact same

theorem broadcastAll_of_fits (name : String) {first s : Shape} {rest : List Shape}
    (head : first = s ∨ first = []) (tail : ∀ t ∈ rest, t = s ∨ t = [])
    (whole : first = s ∨ s ∈ rest) : first.broadcastAll name rest = .ok s := by
  induction rest generalizing first with
  | nil =>
    have same : first = s := whole.resolve_right (by simp)
    rw [same]
    rfl
  | cons t rest ih =>
    have here := tail t (by simp)
    obtain ⟨joined, ran, fits, -⟩ := broadcast_of_fits name head here
    refine bind_eq_ok.mpr ⟨joined, ran, ih fits (fun u member => tail u (List.mem_cons_of_mem _ member)) ?_⟩
    rcases whole with same | there
    · exact .inl (broadcast_of_some head here (.inl same) ran)
    · rcases List.mem_cons.mp there with same | later
      · exact .inl (broadcast_of_some head here (.inr same.symm) ran)
      · exact .inr later

end Shape

namespace Op

variable {math : MathMode} {ts : List Tensor} {r : Tensor} {k : Kind} {s : Shape}

/-- A value is computed from as many tensors as the operation has operands. -/
theorem count_of_eval [BlockRoutine] {op : Op} (computes : ¬ op.isTransfer) (ran : op.eval math ts = .ok r) :
    ts.length = op.arity := by
  have result := (resultShape_eq_ok.mp (shape_of_eval computes ran)).1
  unfold outputShape at result
  by_cases count : (ts.map Tensor.shape).length ≠ op.arity
  · rw [if_pos count] at result
    cases result
  · rw [List.length_map] at count
    exact not_not.mp count

theorem kinds_of_sources {n : Nat} {srcs : List (Kernel.Source (Elem k))}
    (resolved : Kernel.sources k n (ts.map fun t => .buffer t.data) (ts.map Tensor.shape) = .ok srcs) :
    ∀ t ∈ ts, t.kind = k := by
  induction ts generalizing srcs with
  | nil => simp
  | cons first rest ih =>
    obtain ⟨s, head, more⟩ := bind_eq_ok.mp resolved
    obtain ⟨tail, others, -⟩ := bind_eq_ok.mp more
    obtain ⟨xs, viewed, -⟩ := bind_eq_ok.mp head
    refine List.forall_mem_cons.mpr ⟨?_, ih others⟩
    by_contra other
    have refused : ¬ first.data.kind = k := other
    rw [Data.view, dif_neg refused] at viewed
    cases viewed

/-- An expression takes as many operands as it has inputs, whose shapes go with that of one of them. -/
theorem shapes_of_fused {e : Expr} {shapes : List Shape} (result : (Op.fused e).outputShape shapes = .ok s) :
    shapes.length = e.inputs ∧ (∀ t ∈ shapes, t = s ∨ t = []) ∧ s ∈ shapes := by
  simp only [outputShape] at result
  split at result
  · cases result
  rename_i count
  cases shapes with
  | nil => cases result
  | cons first rest => exact ⟨not_not.mp count, Shape.broadcastAll_ok result, Shape.broadcastAll_mem result⟩

variable [BlockRoutine]

/-- An expression has a value only on tensors of one kind whose shapes go with that of one of them. -/
theorem fused_operands {e : Expr} (ran : (Op.fused e).eval math ts = .ok r) :
    (∀ t ∈ ts, t.kind = r.kind ∧ (t.shape = r.shape ∨ t.shape = [])) ∧ ∃ t ∈ ts, t.shape = r.shape := by
  have computes : ¬ (Op.fused e).isTransfer := Bool.false_ne_true
  obtain ⟨-, shapes, whole⟩ := shapes_of_fused (resultShape_eq_ok.mp (shape_of_eval computes ran)).1
  obtain ⟨first, rest, kind, rfl, -, computed⟩ := kernel_of_eval Kernel.fused computes rfl ran
  simp only [Kernel.fused] at computed
  split at computed
  · cases computed
  rw [if_neg (by simp [Data.size])] at computed
  obtain ⟨srcs, resolved, computed⟩ := bind_eq_ok.mp computed
  have kinds := kinds_of_sources resolved
  split at computed
  swap
  · cases computed
  have kindOf : kind = r.kind := congrArg Data.kind (Except.ok.inj computed)
  refine ⟨fun t member => ⟨(kinds t member).trans kindOf, ?_⟩, List.mem_map.mp whole⟩
  exact shapes t.shape (List.mem_map_of_mem (f := Tensor.shape) member)

/-- An expression has a value on tensors of its kind whose shapes go with one of them. -/
theorem eval_fused {e : Expr} (checked : e.check k = .ok ()) (count : ts.length = e.inputs)
    (fits : ∀ u ∈ ts, u.kind = k ∧ (u.shape = s ∨ u.shape = [])) (whole : ∃ u ∈ ts, u.shape = s)
    (math : MathMode) : ∃ r, (Op.fused e).eval math ts = .ok r ∧ r.shape = s ∧ r.kind = k := by
  have computes : ¬ (Op.fused e).isTransfer := Bool.false_ne_true
  have completes := Kernel.fused_total checked count (fun u member => (fits u member).1)
    (fun u member => (fits u member).2) math
  cases ts with
  | nil =>
    obtain ⟨u, member, -⟩ := whole
    cases member
  | cons first rest =>
    have shaped : (Op.fused e).outputShape ((first :: rest).map Tensor.shape) = .ok s := by
      have counted : ¬ ((first :: rest).map Tensor.shape).length ≠ (Op.fused e).arity := by
        rw [List.length_map]
        exact not_not.mpr count
      simp only [outputShape, if_neg counted]
      refine Shape.broadcastAll_of_fits _ (fits first (by simp)).2 ?_ ?_
      · intro a member
        obtain ⟨u, inRest, rfl⟩ := List.mem_map.mp member
        exact (fits u (List.mem_cons_of_mem _ inRest)).2
      · obtain ⟨u, member, shape⟩ := whole
        rcases List.mem_cons.mp member with rfl | later
        · exact .inl shape
        · exact .inr (List.mem_map.mpr ⟨u, later, shape⟩)
    have room : s.fits := by
      obtain ⟨u, -, rfl⟩ := whole
      exact u.fits
    have result := resultShape_eq_ok.mpr ⟨shaped, rfl, room⟩
    exact eval_of_completes computes rfl (fits first (by simp)).1 result completes

/-- The operands of an elementwise value have its kind, and its shape or no axes, and one of them has its shape. -/
theorem fusable_operands {op : Op} (fusable : op.isFusable) (ran : op.eval math ts = .ok r) :
    (∀ t ∈ ts, t.kind = r.kind ∧ (t.shape = r.shape ∨ t.shape = [])) ∧ ∃ t ∈ ts, t.shape = r.shape := by
  have count := count_of_eval (computes_of_fusable fusable) ran
  rcases isFusable_cases fusable with ⟨f, rfl⟩ | ⟨f, rfl⟩ | ⟨e, rfl⟩
  · obtain ⟨t, rfl⟩ : ∃ t, ts = [t] := List.length_eq_one_iff.mp count
    obtain ⟨r', ran', shape, kind⟩ := eval_unary f t math
    obtain rfl : r = r' := Except.ok.inj (ran.symm.trans ran')
    exact ⟨List.forall_mem_singleton.mpr ⟨kind.symm, .inl shape.symm⟩, t, by simp, shape.symm⟩
  · obtain ⟨t, u, rfl⟩ : ∃ t u, ts = [t, u] := List.length_eq_two.mp count
    obtain ⟨kindU, kindR, joined⟩ := binary_operands ran
    obtain ⟨left, right, -⟩ := Shape.broadcast_ok joined
    refine ⟨List.forall_mem_cons.mpr ⟨⟨kindR.symm, left⟩,
      List.forall_mem_singleton.mpr ⟨kindU.trans kindR.symm, right⟩⟩, ?_⟩
    rcases Shape.joined_cases joined with same | same
    · exact ⟨t, by simp, same.symm⟩
    · exact ⟨u, by simp, same.symm⟩
  · exact fused_operands ran

/-- An elementwise operation has a value on tensors of its kind whose shapes go with results of one shape. -/
theorem eval_fusable {op : Op} (fusable : op.isFusable) (accepted : op.accepts k = .ok ())
    (count : ts.length = op.arity) (given : ts ≠ [])
    (fits : ∀ u ∈ ts, u.kind = k ∧ (u.shape = s ∨ u.shape = [])) (math : MathMode) :
    ∃ r, op.eval math ts = .ok r ∧ r.kind = k ∧ (r.shape = s ∨ r.shape = []) := by
  rcases isFusable_cases fusable with ⟨f, rfl⟩ | ⟨f, rfl⟩ | ⟨e, rfl⟩
  · obtain ⟨t, rfl⟩ : ∃ t, ts = [t] := List.length_eq_one_iff.mp count
    obtain ⟨kindT, fitsT⟩ := fits t (by simp)
    obtain ⟨r, ran, shape, kind⟩ := eval_unary f t math
    exact ⟨r, ran, kind.trans kindT, by rwa [shape]⟩
  · obtain ⟨t, u, rfl⟩ : ∃ t u, ts = [t, u] := List.length_eq_two.mp count
    obtain ⟨kindT, fitsT⟩ := fits t (by simp)
    obtain ⟨kindU, fitsU⟩ := fits u (by simp)
    obtain ⟨joined, ranShape, fitsR, -⟩ := Shape.broadcast_of_fits f.name fitsT fitsU
    obtain ⟨r, ran, shape, kind⟩ := eval_binary (kindU.trans kindT.symm) ranShape math
    exact ⟨r, ran, kind.trans kindT, by rwa [shape]⟩
  · by_cases whole : ∃ u ∈ ts, u.shape = s
    · obtain ⟨r, ran, shape, kind⟩ := eval_fused accepted count fits whole math
      exact ⟨r, ran, kind, .inl shape⟩
    · -- Without an operand of that shape, all operands are scalars.
      have scalars : ∀ u ∈ ts, u.shape = [] := fun u member =>
        (fits u member).2.resolve_left fun same => whole ⟨u, member, same⟩
      obtain ⟨u, member⟩ := List.exists_mem_of_ne_nil ts given
      obtain ⟨r, ran, shape, kind⟩ := eval_fused accepted count
        (fun u member => ⟨(fits u member).1, .inl (scalars u member)⟩) ⟨u, member, scalars u member⟩ math
      exact ⟨r, ran, kind, .inr shape⟩

end Op

namespace Tensor

theorem at?_scalar {t : Tensor} {n : Nat} (differs : t.shape.volume ≠ n) (k : Kind) (i : Nat) :
    t.at? k n i = t.elem? k 0 := by
  unfold Tensor.at? Tensor.elem?
  cases t.data.view k with
  | ok xs => exact if_neg differs
  | error e => rfl

/-- A tensor whose shape goes with results of that shape has an element for each of their places. -/
theorem exists_at {s : Shape} {i : Nat} (inRange : i < s.volume) {t : Tensor} {k : Kind} (kindOf : t.kind = k)
    (shape : t.shape = s ∨ t.shape = []) : ∃ x, t.at? k s.volume i = some x := by
  obtain ⟨xs, viewed, size⟩ := Kernel.view_of_kind kindOf
  simp only [at?, viewed]
  by_cases full : t.shape.volume = s.volume
  · rw [if_pos full]
    exact ⟨_, Array.getElem?_eq_getElem (by omega)⟩
  · rw [if_neg full]
    have scalar : t.shape = [] := by
      rcases shape with same | none
      · exact absurd (congrArg Shape.volume same) full
      · exact none
    have one : xs.size = 1 := by rw [size, scalar]; rfl
    exact ⟨_, Array.getElem?_eq_getElem (by omega)⟩

/-- The place of a result that its operands go by: its own, or the only one of a scalar. -/
theorem place_cases {s : Shape} {i : Nat} (inRange : i < s.volume) {r : Tensor}
    (shape : r.shape = s ∨ r.shape = []) (k : Kind) :
    ∃ j, j < r.shape.volume ∧ r.at? k s.volume i = r.elem? k j ∧ ∀ t : Tensor,
      t.shape = r.shape ∨ t.shape = [] → t.at? k s.volume i = t.at? k r.shape.volume j := by
  by_cases full : r.shape.volume = s.volume
  · rw [← full] at inRange ⊢
    exact ⟨i, inRange, r.at?_self k i, fun _ _ => rfl⟩
  · have scalar : r.shape = [] := by
      rcases shape with same | none
      · exact absurd (congrArg Shape.volume same) full
      · exact none
    refine ⟨0, by rw [scalar]; decide, at?_scalar full k i, fun t fits => ?_⟩
    have same : t.shape = r.shape := by
      rcases fits with same | none
      · exact same
      · rw [none, scalar]
    rw [at?_scalar (by rwa [same]), ← same, Tensor.at?_self]

end Tensor

end TensorGraph
