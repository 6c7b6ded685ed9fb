import Mathlib.Algebra.BigOperators.Group.List.Basic
import TensorGraph.Proofs.Op.Typing

/-! Sizes in machine words. A product that overflows on the way can only come out small behind an extent of zero, so
where all operands have elements nothing but a product of matrices can be too large. -/
namespace TensorGraph

open Checked

namespace Shape

variable {s : Shape}

theorem product?_of_bound {n : Nat} {ds : List Nat} (positive : 0 < n * volume ds) (bound : n * volume ds < word) :
    product? n ds = some (n * volume ds) := by
  induction ds generalizing n with
  | nil => simp [product?, volume]
  | cons d ds ih =>
    rw [volume, ← Nat.mul_assoc] at positive bound ⊢
    have first : n * d < word := by
      refine Nat.lt_of_le_of_lt ?_ bound
      exact Nat.le_mul_of_pos_right _ (Nat.pos_of_mul_pos_left positive)
    rw [product?, if_pos first, ih positive bound]

theorem counts_of_pos (positive : 0 < s.volume) (bound : s.volume < word) : s.counts := by
  rw [counts, product?_of_bound (n := 1) (by rwa [Nat.one_mul]) (by rwa [Nat.one_mul])]
  rfl

theorem fits_of_pos (positive : 0 < s.volume) (bound : s.volume < capacity) : s.fits := by
  have counted := counts_of_pos positive (Nat.lt_trans bound (by decide))
  simp [fits, counted, bound]

theorem volume_eq_prod (s : Shape) : s.volume = s.prod := by
  induction s with
  | nil => rfl
  | cons d ds ih => rw [volume, List.prod_cons, ih]

theorem volume_take_drop (s : Shape) (i : Nat) : volume (s.take i) * volume (s.drop i) = s.volume := by
  rw [← volume_append, List.take_append_drop]

/-- What is left of extents that are not zero is no more than all of them. -/
theorem volume_drop_le (positive : 0 < s.volume) (i : Nat) : 0 < volume (s.drop i) ∧ volume (s.drop i) ≤ s.volume := by
  rw [← volume_take_drop s i] at positive ⊢
  exact ⟨Nat.pos_of_mul_pos_left positive, Nat.le_mul_of_pos_left _ (Nat.pos_of_mul_pos_right positive)⟩

theorem volume_take_le (positive : 0 < s.volume) (i : Nat) : 0 < volume (s.take i) ∧ volume (s.take i) ≤ s.volume := by
  rw [← volume_take_drop s i] at positive ⊢
  exact ⟨Nat.pos_of_mul_pos_right positive, Nat.le_mul_of_pos_right _ (Nat.pos_of_mul_pos_left positive)⟩

theorem le_of_mem_strides (positive : 0 < s.volume) {n : Nat} (member : n ∈ s.strides) : n ≤ s.volume := by
  induction s with
  | nil => cases member
  | cons d ds ih =>
    have rest := volume_drop_le positive 1
    rw [List.drop_one, List.tail_cons] at rest
    rcases List.mem_cons.mp member with rfl | member
    · exact rest.2
    · exact Nat.le_trans (ih rest.1 member) rest.2

/-- The shape that is left of another one when an axis, or every axis, is reduced. -/
def without (s : Shape) : Option Nat → Shape
  | none => []
  | some axis => s.eraseIdx axis

/-- A shape without one of its axes has no more elements, unless that axis had none. -/
theorem volume_eraseIdx_le (positive : 0 < s.volume) {axis : Nat} (inRange : axis < s.length) :
    0 < volume (s.eraseIdx axis) ∧ volume (s.eraseIdx axis) ≤ s.volume := by
  have whole : volume (s.take axis) * (s[axis] * volume (s.drop (axis + 1))) = s.volume := by
    rw [← volume_take_drop s axis, List.drop_eq_getElem_cons inRange, volume]
  have left := (volume_take_le positive axis).1
  have right := (volume_drop_le positive (axis + 1)).1
  rw [List.eraseIdx_eq_take_drop_succ, volume_append]
  refine ⟨Nat.mul_pos left right, ?_⟩
  rw [← whole]
  refine Nat.mul_le_mul_left _ (Nat.le_mul_of_pos_left _ ?_)
  rw [← whole] at positive
  exact Nat.pos_of_mul_pos_right (Nat.pos_of_mul_pos_left positive)

/-- Extents in another order have as many elements. -/
theorem volume_permuted {perm : List Nat} {t : Shape} (permutes : isPermutation perm s.length)
    (permuted : s.permuted perm = .ok t) : volume t = s.volume := by
  have same : t.Perm s := by
    unfold Shape.permuted at permuted
    split at permuted <;> cases permuted
    rename_i found
    have images : (List.range s.length).mapM (fun p => s[p]?) = some s := by
      refine mapM_eq_some.mpr (List.forall₂_iff_get.mpr ⟨by simp, fun i _ inRange => ?_⟩)
      simp [List.getElem?_eq_getElem inRange]
    have order := (Op.perm_of_isPermutation permutes).map fun p => s[p]?
    rw [map_of_mapM images, map_of_mapM found] at order
    exact ((List.map_perm_map_iff fun _ _ => Option.some.inj).mp order).symm
  rw [volume_eq_prod, volume_eq_prod, same.prod_eq]

theorem joined_cases {name : String} {a b joined : Shape} (ran : broadcast name a b = .ok joined) :
    joined = a ∨ joined = b := by
  unfold broadcast at ran
  split at ran
  · exact .inl (Except.ok.inj ran).symm
  · split at ran
    · exact .inr (Except.ok.inj ran).symm
    · cases ran

/-- Operands that agree do so in either order. -/
theorem broadcast_comm {name : String} {a b joined : Shape} (ran : broadcast name a b = .ok joined) :
    broadcast name b a = .ok joined := by
  unfold broadcast at ran ⊢
  split at ran
  · rename_i left
    cases ran
    rcases left with rfl | rfl
    · simp
    · by_cases none : a = [] <;> simp [none, eq_comm]
  · split at ran <;> cases ran
    rename_i none
    simp [none]

/-- The result of an elementwise operation has the shape of one of the operands. -/
theorem broadcastAll_mem {name : String} {first joined : Shape} {rest : List Shape}
    (ran : first.broadcastAll name rest = .ok joined) : joined ∈ first :: rest := by
  induction rest generalizing first with
  | nil =>
    cases ran
    exact List.mem_singleton_self _
  | cons second rest ih =>
    obtain ⟨both, atHead, atRest⟩ := bind_eq_ok.mp ran
    rcases List.mem_cons.mp (ih atRest) with rfl | later
    · rcases joined_cases atHead with rfl | rfl <;> simp
    · exact List.mem_cons_of_mem _ (List.mem_cons_of_mem _ later)

end Shape

namespace Op

/-- An operation gets a result shape if its extents agree, its sizes can be counted and there may be memory for the
result. -/
theorem resultShape_eq_ok {op : Op} {shapes : List Shape} {s : Shape} :
    op.resultShape shapes = .ok s ↔ op.outputShape shapes = .ok s ∧ op.counts shapes ∧ s.fits := by
  unfold resultShape
  cases op.outputShape shapes with
  | error e => simp
  | ok s' =>
    by_cases held : op.counts shapes ∧ s'.fits
    · simp only [ok_bind, held.1, held.2, Bool.and_self, if_true, pure_eq, Except.ok.injEq]
      exact ⟨by rintro rfl; exact ⟨rfl, trivial, held.2⟩, And.left⟩
    · have refused : ¬ (op.counts shapes && s'.fits) = true := by simpa using held
      simp only [ok_bind, if_neg refused, throw_eq, reduceCtorEq, Except.ok.injEq, false_iff]
      rintro ⟨rfl, holds⟩
      exact held holds

theorem resultShape_of_error {op : Op} {shapes : List Shape} {e : Error} (failed : op.outputShape shapes = .error e) :
    op.resultShape shapes = .error e := by
  rw [resultShape, failed, error_bind]

/-- Sizes that cannot be counted, or that no memory has room for, are a crash. -/
theorem resultShape_crash {op : Op} {shapes : List Shape} {s : Shape} (shaped : op.outputShape shapes = .ok s)
    (beyond : ¬ (op.counts shapes ∧ s.fits)) : op.resultShape shapes = .error .crash := by
  simp [resultShape, shaped, beyond]

theorem resultShape_error {op : Op} {shapes : List Shape} {e : Error} (ran : op.resultShape shapes = .error e) :
    e.OfExtents := by
  unfold resultShape at ran
  rcases bind_eq_error.mp ran with failed | ⟨s, -, refused⟩
  · exact outputShape_error failed
  · split at refused <;> cases refused
    exact .inr rfl

/-- Operations that compute element by element, and transfers. -/
def isPointwise : Op → Bool
  | unary _ | binary _ | cast _ | fused _ | toDevice _ | toHost => true
  | _ => false

theorem isPointwise_of_isTransfer {op : Op} (moves : op.isTransfer) : op.isPointwise := by
  cases op <;> first | rfl | cases moves

theorem outputShape_pointwise {op : Op} (pointwise : op.isPointwise) (first : Shape) (rest : List Shape) :
    match op.outputShape (first :: rest) with
    | .ok s => s ∈ first :: rest
    | .error e => e.IsShape := by
  by_cases counted : (first :: rest).length ≠ op.arity
  · simp only [outputShape, if_pos counted]
    exact ⟨_, _, rfl⟩
  simp only [outputShape, if_neg counted]
  cases op with
  | unary f | cast k | toDevice n | toHost => exact List.mem_cons_self
  | binary f | fused e =>
    cases joined : first.broadcastAll _ rest with
    | ok s => exact Shape.broadcastAll_mem joined
    | error e => exact Shape.broadcastAll_error joined
  | _ => cases pointwise

/-- The result of a pointwise operation is as large as one of the operands. -/
theorem pointwise_calm {op : Op} (pointwise : op.isPointwise) {ts : List Tensor} (some : ts ≠ []) :
    op.resultShape (ts.map Tensor.shape) ≠ .error .crash := by
  intro crashed
  obtain ⟨t, ts, rfl⟩ := List.exists_cons_of_ne_nil some
  have shaped := outputShape_pointwise pointwise t.shape (ts.map Tensor.shape)
  rw [List.map_cons, resultShape] at crashed
  rcases bind_eq_error.mp crashed with failed | ⟨s, held, refused⟩
  · rw [failed] at shaped
    obtain ⟨op, reason, shape⟩ := shaped
    cases shape
  · rw [held] at shaped
    obtain ⟨u, -, rfl⟩ : ∃ u ∈ t :: ts, u.shape = s := List.mem_map.mp shaped
    have own : op.counts (t.shape :: ts.map Tensor.shape) := by cases op <;> first | rfl | cases pointwise
    simp [own, u.fits] at refused

/-- On these operands, if there are any, the sizes of an operation can be counted, and there may be memory for its
result. -/
def Calm (op : Op) (operands : Option (List Tensor)) : Prop :=
  ∀ ts ∈ operands, op.resultShape (ts.map Tensor.shape) ≠ .error .crash

theorem calm_of_pointwise {op : Op} (pointwise : op.isPointwise) {α : Type} {value : α → Option Tensor} {vs : List α}
    (some : vs ≠ []) : op.Calm (vs.mapM value) := by
  intro ts values
  refine pointwise_calm pointwise fun none => some ?_
  have each := mapM_eq_some.mp values
  rw [none] at each
  cases each
  rfl

theorem binary_outputShape (f : Binary) (s t : Shape) :
    (binary f).outputShape [s, t] = Shape.broadcast (binary f).name s t := by
  have counted : ¬ ([s, t] : List Shape).length ≠ (binary f).arity := by simp [arity]
  simp only [outputShape, if_neg counted, Shape.broadcastAll]
  cases Shape.broadcast (binary f).name s t <;> rfl

/-- The order of the operands of a binary operation does not matter for the extents of the result. -/
theorem binary_resultShape_comm (f : Binary) (s t : Shape) :
    ((binary f).resultShape [s, t]).toOption = ((binary f).resultShape [t, s]).toOption := by
  have half {s t u : Shape} (shaped : (binary f).resultShape [s, t] = .ok u) : (binary f).resultShape [t, s] = .ok u := by
    obtain ⟨joined, -, fits⟩ := resultShape_eq_ok.mp shaped
    rw [binary_outputShape] at joined
    exact resultShape_eq_ok.mpr ⟨(binary_outputShape f t s).trans (Shape.broadcast_comm joined), rfl, fits⟩
  cases first : (binary f).resultShape [s, t] with
  | ok u => rw [half first]
  | error e =>
    cases second : (binary f).resultShape [t, s] with
    | ok u => cases first.symm.trans (half second)
    | error e' => rfl

theorem reduce_sizes (f : Reduction) {axis : Option Nat} {s : Shape} (positive : 0 < s.volume)
    (bound : s.volume < Shape.capacity) (inRange : ∀ a ∈ axis, a < s.length) (rest : List Shape) :
    (reduce f axis).counts (s :: rest) ∧ (s.without axis).fits := by
  cases axis with
  | none => exact ⟨rfl, rfl⟩
  | some axis =>
    have inWord {n : Nat} (le : n ≤ s.volume) : n < Shape.word :=
      Nat.lt_of_le_of_lt le (Nat.lt_trans bound (by decide))
    have left := Shape.volume_take_le positive axis
    have right := Shape.volume_drop_le positive (axis + 1)
    have without := Shape.volume_eraseIdx_le positive (inRange axis rfl)
    refine ⟨?_, Shape.fits_of_pos without.1 (Nat.lt_of_le_of_lt without.2 bound)⟩
    simp [counts, Shape.counts_of_pos left.1 (inWord left.2), Shape.counts_of_pos right.1 (inWord right.2)]

theorem transpose_sizes {perm : List Nat} {s r : Shape} (positive : 0 < s.volume) (bound : s.volume < Shape.capacity)
    (permutes : isPermutation perm s.length) (permuted : s.permuted perm = .ok r) (rest : List Shape) :
    (transpose perm).counts (s :: rest) ∧ r.fits := by
  have volumes := Shape.volume_permuted permutes permuted
  refine ⟨?_, Shape.fits_of_pos (volumes ▸ positive) (volumes ▸ bound)⟩
  simp only [counts, Bool.or_eq_true, List.all_eq_true, decide_eq_true_eq]
  refine .inr fun n member => Nat.lt_of_le_of_lt (Shape.le_of_mem_strides positive member) ?_
  exact Nat.lt_trans bound (by decide)

/-- Where the operands have elements, the sizes of all operations but products can be counted, and there may be memory
for their results. -/
theorem sizes_of_elements {op : Op} {tys : List Ty} {ty : Ty} {ts : List Tensor} {s : Shape}
    (inferred : op.infer tys = .ok ty) (typed : List.Forall₂ Tensor.HasType ts tys) (notProduct : op ≠ .matmul)
    (elements : ∀ t ∈ ts, t.shape.volume ≠ 0) (shaped : op.outputShape (ts.map Tensor.shape) = .ok s) :
    op.counts (ts.map Tensor.shape) ∧ s.fits := by
  obtain ⟨firstTy, restTys, rfl, count, -, -, rank, -, -⟩ := infer_eq_ok.mp inferred
  cases typed with
  | @cons t _ ts _ head tail =>
  have counted : ¬ (t.shape :: ts.map Tensor.shape).length ≠ op.arity := by
    rw [← count]
    simp [tail.length_eq]
  have positive : 0 < t.shape.volume := Nat.pos_of_ne_zero (elements t (by simp))
  have bound : t.shape.volume < Shape.capacity := Shape.volume_lt_of_fits t.fits
  have joins {name : String} (ran : t.shape.broadcastAll name (ts.map Tensor.shape) = .ok s) : s.fits := by
    obtain ⟨u, -, rfl⟩ := List.mem_map.mp (List.map_cons ▸ Shape.broadcastAll_mem ran : s ∈ (t :: ts).map Tensor.shape)
    exact u.fits
  simp only [outputShape, List.map_cons, if_neg counted] at shaped
  cases op with
  | unary f | cast k | toDevice n | toHost =>
    cases shaped
    exact ⟨rfl, t.fits⟩
  | binary f | fused e => exact ⟨rfl, joins shaped⟩
  | reduce f axis =>
    cases axis with
    | none =>
      cases shaped
      exact reduce_sizes f positive bound (by simp) _
    | some axis =>
      simp only at shaped
      split at shaped <;> cases shaped
      rename_i inRange
      exact reduce_sizes f positive bound (fun _ same => Option.some.inj same ▸ inRange) _
  | matmul => exact absurd rfl notProduct
  | reshape target =>
    simp only at shaped
    split at shaped
    · cases shaped
    split at shaped <;> cases shaped
    rename_i same
    exact ⟨rfl, Shape.fits_of_pos (same ▸ positive) (same ▸ bound)⟩
  | transpose perm =>
    simp only at shaped
    split at shaped
    · have permutes := (permutes_of_inferRank rank).1
      rw [← head.2] at permutes
      exact transpose_sizes positive bound permutes shaped _
    · cases shaped

end Op

end TensorGraph
