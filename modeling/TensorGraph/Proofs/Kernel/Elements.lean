import TensorGraph.Proofs.Kernel.Evaluation

/-! The elements of elementwise results. Each of them depends on the elements of the operands at its
place alone, where an operand with one element counts at every place. -/
namespace TensorGraph

open Checked Kernel

/-- The element of a tensor that an elementwise operation reads for place `i` of `n`. -/
def Tensor.at? (t : Tensor) (kind : Kind) (n i : Nat) : Option (Elem kind) :=
  match t.data.view kind with
  | .ok xs => if t.shape.volume = n then xs[i]? else xs[0]?
  | .error _ => none

/-- The elements of a tensor of that kind. -/
def Tensor.elem? (t : Tensor) (kind : Kind) (i : Nat) : Option (Elem kind) :=
  match t.data.view kind with
  | .ok xs => xs[i]?
  | .error _ => none

namespace Tensor

theorem at?_self (t : Tensor) (kind : Kind) (i : Nat) : t.at? kind t.shape.volume i = t.elem? kind i := by
  unfold Tensor.at? elem?
  cases t.data.view kind with
  | ok xs => simp
  | error e => rfl

theorem elem?_of_data {t : Tensor} {kind : Kind} {elems : Array (Elem kind)}
    (dataOf : t.data = ⟨kind, elems⟩) (i : Nat) : t.elem? kind i = elems[i]? := by
  have viewed : t.data.view kind = .ok elems := by rw [dataOf]; simp [Data.view]
  unfold elem?
  rw [viewed]

/-- Tensors of one kind and shape with the same elements are equal. -/
theorem ext_elem? {t u : Tensor} {kind : Kind} (left : t.kind = kind) (right : u.kind = kind)
    (shape : t.shape = u.shape)
    (same : ∀ i, i < t.shape.volume → t.elem? kind i = u.elem? kind i) : t = u := by
  rcases t with ⟨s, ⟨k, xs⟩, sizeT⟩
  rcases u with ⟨s', ⟨k', ys⟩, sizeU⟩
  obtain rfl : k = kind := left
  obtain rfl : k' = k := right
  obtain rfl : s = s' := shape
  simp only [Data.size] at sizeT sizeU
  have elems : xs = ys := by
    refine Array.ext (by omega) fun i inXs inYs => ?_
    have here := same i (by simpa [sizeT] using inXs)
    simpa [elem?, Data.view, inXs, inYs] using here
  subst elems
  rfl

end Tensor

theorem source_at {t : Tensor} {kind : Kind} {n : Nat} {s : Source (Elem kind)}
    (resolved : Source.of kind (.buffer t.data) t.shape n = .ok s) (i : Nat) (old : Elem kind) :
    s.get i old = t.at? kind n i := by
  obtain ⟨xs, viewed, rest⟩ := bind_eq_ok.mp resolved
  unfold Tensor.at?
  rw [viewed]
  by_cases long : t.shape.volume > xs.size
  · simp [long] at rest
  simp only [if_neg long] at rest
  by_cases full : t.shape.volume = n
  · rw [if_pos full] at rest
    cases rest
    simp [full, Source.get]
  · rw [if_neg full] at rest
    by_cases single : t.shape.volume = 1
    · rw [if_pos single] at rest
      cases first : xs[0]? with
      | some x =>
        rw [first] at rest
        cases rest
        simp [full, Source.get, first]
      | none =>
        rw [first] at rest
        cases rest
    · rw [if_neg single] at rest
      cases rest

namespace Op

/-- A value that was computed is what the kernel gives on buffers of just the right size. -/
theorem kernel_of_eval [BlockRoutine] {op : Op} (kernel : Kernel) {math : MathMode} {ts : List Tensor} {t : Tensor}
    (computes : ¬ op.isTransfer) (listed : Kernels.reference? op.family = some kernel)
    (ran : op.eval math ts = .ok t) :
    ∃ first rest kind, ts = first :: rest ∧ kind = op.resultKind first.kind ∧
      kernel op (exactly ts kind t.shape math) = .ok t.data := by
  have result := shape_of_eval computes ran
  rw [eval_computed computes] at ran
  have found : Kernels.host.get? op.family = some (Kernel.counted kernel) :=
    Option.map_eq_some_iff.mpr ⟨kernel, listed, rfl⟩
  cases ts with
  | nil =>
    simp only [Kernels.run, lookup_eq_ok.mpr found, ok_bind] at ran
    obtain ⟨shape, -, ran⟩ := bind_eq_ok.mp ran
    cases ran
  | cons first rest =>
    rw [run_eq found, result, ok_bind] at ran
    obtain ⟨data, computed, made⟩ := bind_eq_ok.mp ran
    obtain rfl : t.data = data := (Tensor.make_eq_ok made).2
    exact ⟨first, rest, _, rfl, rfl, (counted_eq result rfl).symm.trans computed⟩

theorem filled_elem? {kind : Kind} {n : Nat} {f : Nat → Elem kind → Option (Elem kind)}
    {filled : Array (Elem kind)} (ran : fill (.replicate n Scalar.zero) n f = .ok filled) {i : Nat}
    (inRange : i < n) : ∃ x, f i Scalar.zero = some x ∧ filled[i]? = some x := by
  have fits : n ≤ (Array.replicate n (Scalar.zero : Elem kind)).size := by simp
  obtain ⟨ys, size, rfl, places⟩ := (fill_eq_ok fits).mp ran
  have inYs : i < ys.size := by omega
  refine ⟨ys[i], ?_, ?_⟩
  · have here := places i (by simpa using inRange) inYs
    simpa using here
  · rw [Array.getElem?_append_left inYs]
    exact Array.getElem?_eq_getElem inYs

variable [BlockRoutine]

/-- The elements of a unary result. -/
theorem unary_elem? {f : Unary} {math : MathMode} {t r : Tensor}
    (ran : (Op.unary f).eval math [t] = .ok r) {kind : Kind} (kindOf : t.kind = kind) {i : Nat}
    (inRange : i < r.shape.volume) :
    ∃ x, t.at? kind r.shape.volume i = some x ∧ r.elem? kind i = some (math.unary f x) := by
  subst kindOf
  have computes : ¬ (Op.unary f).isTransfer := Bool.false_ne_true
  obtain ⟨first, rest, kind, split, same, computed⟩ := kernel_of_eval Kernel.unary computes rfl ran
  obtain ⟨rfl, rfl⟩ := List.cons_eq_cons.mp split
  obtain rfl : kind = t.kind := same
  simp only [Kernel.unary, List.map_cons, List.map_nil, item_zero, ok_bind] at computed
  rw [if_neg (by simp [Data.size])] at computed
  obtain ⟨s, resolved, computed⟩ := bind_eq_ok.mp computed
  obtain ⟨filled, ranFill, whole⟩ := bind_eq_ok.mp computed
  obtain ⟨y, here, atPlace⟩ := filled_elem? ranFill inRange
  obtain ⟨x, got, applied⟩ := Option.bind_eq_some_iff.mp here
  cases applied
  rw [source_at resolved] at got
  refine ⟨x, got, ?_⟩
  rw [Tensor.elem?_of_data (Except.ok.inj whole).symm]
  exact atPlace

/-- The elements of a binary result. -/
theorem binary_elem? {f : Binary} {math : MathMode} {t u r : Tensor}
    (ran : (Op.binary f).eval math [t, u] = .ok r) {kind : Kind} (kindOf : t.kind = kind) {i : Nat}
    (inRange : i < r.shape.volume) :
    ∃ x y, t.at? kind r.shape.volume i = some x ∧ u.at? kind r.shape.volume i = some y ∧
      r.elem? kind i = some (math.binary f x y) := by
  subst kindOf
  have computes : ¬ (Op.binary f).isTransfer := Bool.false_ne_true
  obtain ⟨first, rest, kind, split, same, computed⟩ := kernel_of_eval Kernel.binary computes rfl ran
  obtain ⟨rfl, rfl⟩ := List.cons_eq_cons.mp split
  obtain rfl : kind = t.kind := same
  simp only [Kernel.binary] at computed
  rw [if_neg (by simp [Data.size])] at computed
  simp only [List.map_cons, List.map_nil, item_zero, item_one, ok_bind] at computed
  obtain ⟨lhs, leftResolved, computed⟩ := bind_eq_ok.mp computed
  obtain ⟨rhs, rightResolved, computed⟩ := bind_eq_ok.mp computed
  obtain ⟨filled, ranFill, whole⟩ := bind_eq_ok.mp computed
  obtain ⟨z, here, atPlace⟩ := filled_elem? ranFill inRange
  obtain ⟨x, gotLeft, here⟩ := Option.bind_eq_some_iff.mp here
  obtain ⟨y, gotRight, applied⟩ := Option.bind_eq_some_iff.mp here
  cases applied
  rw [source_at leftResolved] at gotLeft
  rw [source_at rightResolved] at gotRight
  refine ⟨x, y, gotLeft, gotRight, ?_⟩
  rw [Tensor.elem?_of_data (Except.ok.inj whole).symm]
  exact atPlace

end Op

end TensorGraph
