import Mathlib.Algebra.BigOperators.Group.List.Basic
import Mathlib.Algebra.GroupWithZero.Nat
import TensorGraph.Proofs.Kernel.ShownReads
import TensorGraph.Proofs.Kernel.TotalPointwise

/-! Kernels that read their operands at other places than they write have a result on all operands
whose kinds agree and whose shapes the operation accepts: every place that they read exists. -/
namespace TensorGraph

open Checked

namespace Kernel

/-- Place `r` of row `q` in rows of `n` places. -/
theorem flat_lt {q r m n : Nat} (row : q < m) (place : r < n) : q * n + r < m * n := by
  have next : q * n + n = (q + 1) * n := by rw [Nat.add_mul, Nat.one_mul]
  have last : (q + 1) * n ≤ m * n := Nat.mul_le_mul_right n row
  omega

theorem reshape_total (target : List Nat) {t : Tensor} {kind : Kind} {shape : Shape}
    (same : t.kind = kind) (fits : t.shape.volume = shape.volume) (math : MathMode) :
    Completes reshape (.reshape target) [t] kind shape math := by
  rcases t with ⟨tShape, ⟨k, elems⟩, size_eq⟩
  obtain rfl : k = kind := same
  have size : elems.size = shape.volume := Eq.trans size_eq fits
  have matching : ¬ tShape.volume ≠ shape.volume := not_not.mpr fits
  refine ⟨elems, ?_, size⟩
  simp only [reshape, requireInput, List.map_cons, List.map_nil, item_zero, ok_bind, if_neg matching]
  rw [copyFrom_eq _ _ (Nat.le_of_eq size.symm) (by simp)]
  simp [← size]

/-- A reduction splits the places of its operand around the axis. -/
theorem reduceExtents_ok {f : Reduction} {axis : Option Nat} {s shape : Shape}
    (result : (Op.reduce f axis).outputShape [s] = .ok shape) :
    ∃ outer len inner, reduceExtents s axis = some (outer, len, inner) ∧
      shape.volume = outer * inner ∧ s.volume = outer * len * inner := by
  have counted : ¬ ([s] : List Shape).length ≠ (Op.reduce f axis).arity := by simp [Op.arity]
  simp only [Op.outputShape, if_neg counted] at result
  cases axis with
  | none =>
    cases result
    exact ⟨1, s.volume, 1, rfl, rfl, by simp⟩
  | some axis =>
    by_cases inRange : axis < s.length
    · simp only [inRange, ↓reduceIte] at result
      cases result
      have atAxis : s[axis]? = some (s.get ⟨axis, inRange⟩) := List.getElem?_eq_getElem inRange
      refine ⟨Shape.volume (s.take axis), s.get ⟨axis, inRange⟩,
        Shape.volume (s.drop (axis + 1)), by simp only [reduceExtents, atAxis], ?_, ?_⟩
      · rw [List.eraseIdx_eq_take_drop_succ, Shape.volume_append]
      · have split : s = s.take axis ++ s.get ⟨axis, inRange⟩ :: s.drop (axis + 1) := by
          rw [List.get_eq_getElem, List.cons_getElem_drop_succ, List.take_append_drop]
        calc s.volume
            = Shape.volume (s.take axis ++ s.get ⟨axis, inRange⟩ :: s.drop (axis + 1)) := by
              rw [← split]
          _ = _ := by rw [Shape.volume_append, Shape.volume, Nat.mul_assoc]
    · simp only [inRange, ↓reduceIte] at result
      cases result

/-- The lane of a place lies in the tensor. -/
theorem lane_lt {outer len inner i j : Nat} (place : i < outer * inner) (along : j < len) :
    i / inner * len * inner + i % inner + j * inner < outer * len * inner := by
  have positive : 0 < inner := Nat.pos_of_ne_zero fun none => by simp [none] at place
  have row : i / inner < outer := Nat.div_lt_of_lt_mul (by rwa [Nat.mul_comm])
  have inside := flat_lt (flat_lt row along) (Nat.mod_lt i positive)
  rw [Nat.add_mul] at inside
  omega

theorem lane?_isSome {α : Type} {xs : Array α} {outer len inner i : Nat}
    (size : xs.size = outer * len * inner) (place : i < outer * inner) :
    ∃ lane, lane? xs len inner i = some lane := by
  refine exists_mapM fun j member => ?_
  have inside := lane_lt place (List.mem_range.mp member)
  rw [← size] at inside
  exact ⟨_, Array.getElem?_eq_getElem inside⟩

theorem reduce_total (f : Reduction) (axis : Option Nat) {t : Tensor} {kind : Kind} {shape : Shape}
    (same : t.kind = kind) (result : (Op.reduce f axis).outputShape [t.shape] = .ok shape)
    (math : MathMode) : Completes reduce (.reduce f axis) [t] kind shape math := by
  obtain ⟨outer, len, inner, extents, places, whole⟩ := reduceExtents_ok result
  obtain ⟨xs, viewed, size⟩ := view_of_kind same
  have filled : ∃ filled, fill (.replicate shape.volume Scalar.zero) shape.volume
      (fun i _ => (lane? xs len inner i).bind fun lane => some (reduceLane f math lane)) =
        .ok filled :=
    fill_isOk (by simp) fun i x bound => by
      obtain ⟨lane, found⟩ := lane?_isSome (size.trans whole) (places ▸ bound)
      simp [found]
  obtain ⟨filled, ran⟩ := filled
  have matching : ¬ shape.volume ≠ outer * inner := not_not.mpr places
  refine ⟨filled, ?_, by rw [size_fill ran, Array.size_replicate]⟩
  simp only [reduce, requireInput, List.map_cons, List.map_nil, item_zero, ok_bind, extents,
    if_neg matching, viewed]
  exact congrArg (· >>= _) ran

/-- The operands of a product hold the matrices that its dimensions speak of. -/
theorem productDims_ok {ls rs shape : Shape} (result : Op.productShape? ls rs = some shape) :
    ∃ d, productDims? ls rs = some d ∧ ls.volume = d.batches * d.rows * d.inner ∧
      rs.volume = d.batches * d.inner * d.cols ∧ shape.volume = d.batches * d.rows * d.cols := by
  unfold Op.productShape? at result
  split at result
  · split at result <;> cases result
    rename_i m k k' n same
    refine ⟨⟨1, m, n, k⟩, by simp [productDims?, same], ?_, ?_, ?_⟩ <;> simp [Shape.volume, same]
  · split at result <;> cases result
    rename_i b m k b' k' n same
    refine ⟨⟨b, m, n, k⟩, by simp [productDims?, same], ?_, ?_, ?_⟩ <;>
      simp [Shape.volume, same, Nat.mul_assoc]
  · cases result

/-- The factors of a product are elements of the matrices. -/
theorem term_lt {d : ProductDims} {i p : Nat} (place : i < d.batches * d.rows * d.cols) (inner : p < d.inner) :
    i / (d.rows * d.cols) * d.rows * d.inner + i / d.cols % d.rows * d.inner + p <
        d.batches * d.rows * d.inner ∧
      i / (d.rows * d.cols) * d.inner * d.cols + p * d.cols + i % d.cols < d.batches * d.inner * d.cols := by
  have someCols : 0 < d.cols := Nat.pos_of_ne_zero fun none => by simp [none] at place
  have someRows : 0 < d.rows := Nat.pos_of_ne_zero fun none => by simp [none] at place
  have batch : i / (d.rows * d.cols) < d.batches :=
    Nat.div_lt_of_lt_mul (by rwa [Nat.mul_comm, ← Nat.mul_assoc])
  have row : i / d.cols % d.rows < d.rows := Nat.mod_lt _ someRows
  have col : i % d.cols < d.cols := Nat.mod_lt _ someCols
  have atLeft := flat_lt (flat_lt batch row) inner
  have atRight := flat_lt (flat_lt batch inner) col
  rw [Nat.add_mul] at atLeft atRight
  exact ⟨atLeft, atRight⟩

theorem productAt_isSome {α : Type} [Scalar α] {d : ProductDims} {lhs rhs : Array α} {i : Nat}
    (left : d.batches * d.rows * d.inner ≤ lhs.size) (right : d.batches * d.inner * d.cols ≤ rhs.size)
    (place : i < d.batches * d.rows * d.cols) : (productAt d lhs rhs i).isSome := by
  obtain ⟨terms, mapped⟩ : ∃ terms, (List.range d.inner).mapM (term? d lhs rhs i) = some terms := by
    refine exists_mapM fun p member => ?_
    obtain ⟨atLeft, atRight⟩ := term_lt place (List.mem_range.mp member)
    simp [term?, Nat.lt_of_lt_of_le atLeft left, Nat.lt_of_lt_of_le atRight right]
  simp [productAt, mapped]

/-- The sum for a place depends on the matrices only. -/
theorem productAt_congr {α : Type} [Scalar α] {d : ProductDims} {lhs rhs lhs' rhs' : Array α}
    (left : SameStart (d.batches * (d.rows * d.inner)) lhs lhs')
    (right : SameStart (d.batches * (d.inner * d.cols)) rhs rhs') {i : Nat}
    (place : i < d.batches * (d.rows * d.cols)) :
    productAt d lhs rhs i = productAt d lhs' rhs' i := by
  have terms : (List.range d.inner).mapM (term? d lhs rhs i) = (List.range d.inner).mapM (term? d lhs' rhs' i) := by
    apply mapM_congr
    intro p member
    rw [← Nat.mul_assoc] at place
    obtain ⟨atLeft, atRight⟩ := term_lt place (List.mem_range.mp member)
    rw [term?, term?, left _ (by rwa [← Nat.mul_assoc]), right _ (by rwa [← Nat.mul_assoc])]
  rw [productAt, productAt, terms]

theorem productInRange_exact (kind : Kind) (d : ProductDims) :
    productInRange kind d (d.batches * d.rows * d.inner) (d.batches * d.inner * d.cols) = true := by
  unfold productInRange
  split
  · simp
  · have left : (d.batches - 1) * d.rows * d.inner ≤ d.batches * d.rows * d.inner :=
      Nat.mul_le_mul_right _ (Nat.mul_le_mul_right _ (Nat.sub_le _ _))
    have right : (d.batches - 1) * d.inner * d.cols ≤ d.batches * d.inner * d.cols :=
      Nat.mul_le_mul_right _ (Nat.mul_le_mul_right _ (Nat.sub_le _ _))
    simp [left, right]

/-- Complete matrices have a product, as large as the output. -/
theorem exists_multiplied [BlockRoutine] {kind : Kind} {d : ProductDims} {xs ys out : Array (Elem kind)}
    (left : d.batches * d.rows * d.inner ≤ xs.size) (right : d.batches * d.inner * d.cols ≤ ys.size)
    (room : d.batches * d.rows * d.cols ≤ out.size) :
    ∃ filled, multiplied kind d xs ys out = .ok filled ∧ filled.size = out.size := by
  unfold multiplied
  split
  · rw [Nat.mul_assoc] at left right room
    rw [if_neg (Nat.not_lt.mpr room)]
    exact ⟨_, rfl, (productsBy_keeps (BlockRoutine.confined kind) ⟨left, right, room⟩ (Nat.le_refl _)).1⟩
  · obtain ⟨filled, ran⟩ := fill_isOk room fun i x bound => productAt_isSome left right bound
    exact ⟨filled, ran, size_fill ran⟩

theorem matmul_total [BlockRoutine] {t u : Tensor} {kind : Kind} {shape : Shape} (left : t.kind = kind)
    (right : u.kind = kind) (result : Op.productShape? t.shape u.shape = some shape)
    (math : MathMode) : Completes matmul .matmul [t, u] kind shape math := by
  obtain ⟨d, dims, leftVolume, rightVolume, places⟩ := productDims_ok result
  obtain ⟨xs, leftViewed, leftSize⟩ := view_of_kind left
  obtain ⟨ys, rightViewed, rightSize⟩ := view_of_kind right
  rw [leftVolume] at leftSize
  rw [rightVolume] at rightSize
  have room : d.batches * d.rows * d.cols ≤ (Array.replicate shape.volume (Scalar.zero : Elem kind)).size := by
    simp [places]
  obtain ⟨filled, ran, size⟩ :=
    exists_multiplied (Nat.le_of_eq leftSize.symm) (Nat.le_of_eq rightSize.symm) room
  refine ⟨filled, ?_, by rw [size, Array.size_replicate]⟩
  have inRange : ¬ (!productInRange kind d xs.size ys.size) = true := by
    simp [leftSize, rightSize, productInRange_exact]
  simp only [matmul, requireInput, List.map_cons, List.map_nil, item_zero, item_one, ok_bind, dims,
    leftViewed, rightViewed, if_neg inRange]
  exact congrArg (· >>= _) ran

/-- The largest offset along some axes. -/
def reach (axes : List (Nat × Nat)) : Nat := (axes.map fun a => (a.1 - 1) * a.2).sum

theorem gatherOffset_le {axes : List (Nat × Nat)} (positive : ∀ a ∈ axes, 0 < a.1) (i : Nat) :
    gatherOffset i axes ≤ reach axes := by
  induction axes generalizing i with
  | nil => exact Nat.le_refl 0
  | cons a axes ih =>
    obtain ⟨extent, stride⟩ := a
    have rest := ih (fun b member => positive b (List.mem_cons_of_mem _ member)) (i / extent)
    have inAxis : i % extent ≤ extent - 1 :=
      Nat.le_sub_one_of_lt (Nat.mod_lt i (positive (extent, stride) (by simp)))
    have here : i % extent * stride ≤ (extent - 1) * stride := Nat.mul_le_mul_right stride inAxis
    simp only [gatherOffset, reach, List.map_cons, List.sum_cons] at rest ⊢
    exact Nat.add_le_add here rest

theorem reach_perm {axes axes' : List (Nat × Nat)} (same : axes.Perm axes') :
    reach axes = reach axes' := (same.map _).sum_eq

/-- Along all its axes a tensor reaches its last place. -/
theorem reach_strides {s : Shape} (positive : ∀ extent ∈ s, 0 < extent) :
    reach (s.zip s.strides) + 1 = s.volume := by
  induction s with
  | nil => rfl
  | cons extent s ih =>
    have rest := ih fun e member => positive e (List.mem_cons_of_mem _ member)
    have here : 0 < extent := positive extent (by simp)
    obtain ⟨less, rfl⟩ : ∃ less, extent = less + 1 := ⟨extent - 1, by omega⟩
    simp only [reach, Shape.strides, List.zip_cons_cons, List.map_cons, List.sum_cons,
      Shape.volume, Nat.add_sub_cancel] at rest ⊢
    rw [Nat.add_mul, Nat.one_mul]
    omega

theorem permuted_eq {s out : Shape} {perm : List Nat} (ran : s.permuted perm = .ok out) :
    out = perm.map fun p => s.getD p 0 := by
  unfold Shape.permuted at ran
  split at ran
  · rename_i found
    cases ran
    have each := mapM_eq_some.mp found
    clear found
    induction each with
    | nil => rfl
    | @cons p extent perm out head tail ih =>
      rw [List.map_cons, ← ih, List.getD_eq_getElem?_getD, head, Option.getD_some]
  · cases ran

theorem positive_of_volume {s : Shape} (some : 0 < s.volume) : ∀ extent ∈ s, 0 < extent := by
  induction s with
  | nil => simp
  | cons extent s ih =>
    have product : 0 < extent * Shape.volume s := some
    intro e member
    rcases List.mem_cons.mp member with rfl | inRest
    · exact Nat.pos_of_mul_pos_right product
    · exact ih (Nat.pos_of_mul_pos_left product) e inRest

/-- The axes of a transposed tensor are those of the tensor in another order. -/
theorem permuted_axes {s out strides : Shape} {perm : List Nat}
    (permutes : isPermutation perm s.length) (extents : s.permuted perm = .ok out)
    (steps : Shape.permuted s.strides perm = .ok strides) :
    (out.zip strides).Perm (s.zip s.strides) := by
  have order := Op.perm_of_isPermutation permutes
  have pairs : out.zip strides = perm.map fun p => (s.getD p 0, s.strides.getD p 0) := by
    rw [permuted_eq extents, permuted_eq steps, List.zip_map']
  have whole : s.zip s.strides =
      (List.range s.length).map fun p => (s.getD p 0, s.strides.getD p 0) := by
    refine List.ext_getElem (by simp) fun i inZip inRange => ?_
    simp only [List.length_zip, Shape.length_strides, Nat.min_self] at inZip
    simp [inZip]
  rw [pairs, whole]
  exact order.symm.map _

/-- A transposition reads elements of the tensor only. -/
theorem gatherOffset_lt {s out strides : Shape} {perm : List Nat} (permutes : isPermutation perm s.length)
    (extents : s.permuted perm = .ok out) (steps : Shape.permuted s.strides perm = .ok strides) {i : Nat}
    (place : i < out.volume) : gatherOffset i (out.zip strides).reverse < s.volume := by
  have order := permuted_axes permutes extents steps
  have positive : ∀ a ∈ (out.zip strides).reverse, 0 < a.1 := by
    intro a member
    have inOut := (List.of_mem_zip (List.mem_reverse.mp member)).1
    exact positive_of_volume (Nat.zero_lt_of_lt place) a.1 inOut
  have extentsPositive : ∀ extent ∈ s, 0 < extent := by
    intro extent member
    obtain ⟨p, inShape, rfl⟩ := List.mem_iff_getElem.mp member
    have inSteps : p < s.strides.length := by rwa [Shape.length_strides]
    have inZip : (s[p], s.strides[p]) ∈ s.zip s.strides :=
      List.mem_iff_getElem.mpr ⟨p, by simpa using inShape, by simp⟩
    exact positive _ (List.mem_reverse.mpr (order.mem_iff.mpr inZip))
  have inside := gatherOffset_le positive i
  rw [reach_perm ((List.reverse_perm _).trans order)] at inside
  have last := reach_strides extentsPositive
  omega

/-- The steps of a permutation along the axes of a tensor. -/
theorem exists_strides {s : Shape} {perm : List Nat} (permutes : isPermutation perm s.length) :
    ∃ strides, Shape.permuted s.strides perm = .ok strides ∧ strides.length = perm.length := by
  apply Op.permuted_ok
  intro i member
  rw [Shape.length_strides]
  exact Op.lt_of_mem_permutation permutes i member

theorem transpose_total {t : Tensor} {kind : Kind} {shape : Shape} {perm : List Nat}
    (same : t.kind = kind) (permutes : isPermutation perm t.shape.length)
    (extents : t.shape.permuted perm = .ok shape) (math : MathMode) :
    Completes transpose (.transpose perm) [t] kind shape math := by
  obtain ⟨xs, viewed, size⟩ := view_of_kind same
  obtain ⟨length, -⟩ := Op.isPermutation_spec permutes
  obtain ⟨strides, steps, -⟩ := exists_strides permutes
  have filled : ∃ filled, fill (.replicate shape.volume Scalar.zero) shape.volume
      (fun i _ => xs[gatherOffset i (shape.zip strides).reverse]?) = .ok filled :=
    fill_isOk (by simp) fun i x bound => by
      have inXs := gatherOffset_lt permutes extents steps bound
      rw [← size] at inXs
      simp [inXs]
  obtain ⟨filled, ran⟩ := filled
  refine ⟨filled, ?_, by rw [size_fill ran, Array.size_replicate]⟩
  have lengths : shape.length = perm.length := by rw [permuted_eq extents, List.length_map]
  have matching : ¬ (perm.length ≠ t.shape.length ∨ shape.length ≠ t.shape.length) := by
    rw [lengths, length]
    simp
  simp only [transpose, requireInput, List.map_cons, List.map_nil, item_zero, ok_bind,
    if_neg matching, steps, viewed]
  exact congrArg (· >>= _) ran

end Kernel

end TensorGraph
