import TensorGraph.Proofs.Kernel.Overwriting

/-! Products block by block. The kinds that multiply whole blocks leave each pair of matrices of a batch to a routine,
which is given the operands and the output from the first element of its blocks on. Any routine will do that keeps to
its blocks. -/
namespace TensorGraph.Kernel

open Checked

variable {α : Type} {multiply : BlockProduct α} {d : ProductDims} {lhs rhs out lhs' rhs' out' : Array α}

theorem getElem?_splice {xs ys : Array α} {k : Nat} (fits : k ≤ xs.size) (i : Nat) :
    (xs.extract 0 k ++ ys)[i]? = if i < k then xs[i]? else ys[i - k]? := by
  have size : (xs.extract 0 k).size = k := by simp [fits]
  split
  · rename_i inStart
    rw [Array.getElem?_append_left (by omega), getElem?_start, if_pos inStart]
  · rw [Array.getElem?_append_right (by omega), size]

/-- The operands and the output hold all matrices of a batch. -/
structure ProductDims.Holds (d : ProductDims) (lhs rhs out : Array α) : Prop where
  lhs : d.batches * (d.rows * d.inner) ≤ lhs.size
  rhs : d.batches * (d.inner * d.cols) ≤ rhs.size
  out : d.batches * (d.rows * d.cols) ≤ out.size

/-- From the first element of one of its blocks on, each of them starts with that block. -/
theorem ProductDims.Holds.given (holds : d.Holds lhs rhs out) {b : Nat} (inBatch : b < d.batches) :
    BlockProduct.Given d.rows d.cols d.inner (lhs.extract (b * (d.rows * d.inner)) lhs.size)
      (rhs.extract (b * (d.inner * d.cols)) rhs.size) (out.extract (b * (d.rows * d.cols)) out.size) := by
  have last (n : Nat) : b * n + n ≤ d.batches * n := by
    rw [← Nat.succ_mul]
    exact Nat.mul_le_mul_right n inBatch
  have left := last (d.rows * d.inner)
  have right := last (d.inner * d.cols)
  have result := last (d.rows * d.cols)
  obtain ⟨holdsLeft, holdsRight, holdsOut⟩ := holds
  constructor <;> (rw [Array.size_extract]; omega)

theorem ProductDims.Holds.of_size (holds : d.Holds lhs rhs out) (size : out'.size = out.size) :
    d.Holds lhs rhs out' := ⟨holds.lhs, holds.rhs, by rw [size]; exact holds.out⟩

/-- The first products of a batch are written to their blocks. -/
theorem productsBy_keeps (confined : multiply.Confined) (holds : d.Holds lhs rhs out) {b : Nat}
    (inBatch : b ≤ d.batches) :
    (productsBy multiply d lhs rhs out b).size = out.size ∧
      ∀ i, b * (d.rows * d.cols) ≤ i → (productsBy multiply d lhs rhs out b)[i]? = out[i]? := by
  induction b with
  | zero => exact ⟨rfl, fun _ _ => rfl⟩
  | succ b ih =>
    obtain ⟨size, rest⟩ := ih (by omega)
    have given := (holds.of_size size).given inBatch
    obtain ⟨blockSize, blockRest⟩ := confined.keeps given
    have next : (b + 1) * (d.rows * d.cols) = b * (d.rows * d.cols) + d.rows * d.cols := Nat.succ_mul ..
    have room : b * (d.rows * d.cols) ≤ out.size := by
      have := Nat.mul_le_mul_right (d.rows * d.cols) (Nat.le_of_succ_le inBatch)
      have := holds.out
      omega
    rw [productsBy]
    constructor
    · rw [Array.size_append, blockSize, Array.size_extract, Array.size_extract]
      omega
    · intro i beyond
      rw [getElem?_splice (by omega), if_neg (by omega), blockRest _ (by omega), getElem?_from, ← rest i (by omega)]
      congr 1
      omega

/-- The products of a batch depend on the matrices only. -/
theorem productsBy_start (confined : multiply.Confined) (holds : d.Holds lhs rhs out)
    (holds' : d.Holds lhs' rhs' out') (left : SameStart (d.batches * (d.rows * d.inner)) lhs lhs')
    (right : SameStart (d.batches * (d.inner * d.cols)) rhs rhs') {b : Nat} (inBatch : b ≤ d.batches) :
    SameStart (b * (d.rows * d.cols)) (productsBy multiply d lhs rhs out b)
      (productsBy multiply d lhs' rhs' out' b) := by
  induction b with
  | zero =>
    intro i inStart
    omega
  | succ b ih =>
    obtain ⟨size, -⟩ := productsBy_keeps confined holds (Nat.le_of_succ_le inBatch)
    obtain ⟨size', -⟩ := productsBy_keeps confined holds' (Nat.le_of_succ_le inBatch)
    have inside (n : Nat) : b * n + n ≤ d.batches * n := by
      rw [← Nat.succ_mul]
      exact Nat.mul_le_mul_right n inBatch
    have block := confined.depends ((holds.of_size size).given inBatch) ((holds'.of_size size').given inBatch)
      (left.from (inside _)) (right.from (inside _))
    have next : (b + 1) * (d.rows * d.cols) = b * (d.rows * d.cols) + d.rows * d.cols := Nat.succ_mul ..
    have room := inside (d.rows * d.cols)
    have fits := holds.out
    have fits' := holds'.out
    intro i inStart
    rw [productsBy, productsBy, getElem?_splice (by omega), getElem?_splice (by omega)]
    split
    · exact ih (by omega) i ‹_›
    · exact block _ (by omega)

/-- A kind that multiplies blocks starts with complete matrices. -/
theorem matrices_of_inRange {kind : Kind} {d : ProductDims} {lhs rhs : Nat} (blocks : multipliesBlocks kind)
    (inRange : productInRange kind d lhs rhs) :
    d.batches * (d.rows * d.inner) ≤ lhs ∧ d.batches * (d.inner * d.cols) ≤ rhs := by
  simpa [productInRange, blocks, Nat.mul_assoc] using inRange

theorem SameStart.append {n : Nat} {xs : Array α} (fits : n ≤ xs.size) (more : Array α) : SameStart n xs (xs ++ more) :=
  fun _ inStart => (Array.getElem?_append_left (Nat.lt_of_lt_of_le inStart fits)).symm

/-- Larger buffers are written as buffers of just the right size are, and the rest of the output is kept. -/
theorem productsBy_roomy (confined : multiply.Confined) (holds : d.Holds lhs rhs out) (more more' : Array α)
    (exact : out.size = d.batches * (d.rows * d.cols)) (fits : out.size ≤ out'.size) :
    productsBy multiply d (lhs ++ more) (rhs ++ more') out' d.batches =
      productsBy multiply d lhs rhs out d.batches ++ out'.extract out.size out'.size := by
  have left := holds.lhs
  have right := holds.rhs
  have holds' : d.Holds (lhs ++ more) (rhs ++ more') out' := by
    constructor <;> (try rw [Array.size_append]) <;> omega
  obtain ⟨size, -⟩ := productsBy_keeps confined holds (Nat.le_refl d.batches)
  obtain ⟨-, rest⟩ := productsBy_keeps confined holds' (Nat.le_refl d.batches)
  have start := productsBy_start confined holds holds' (.append left more) (.append right more') (Nat.le_refl d.batches)
  apply Array.ext_getElem?
  intro i
  by_cases inStart : i < out.size
  · rw [Array.getElem?_append_left (by omega), ← start i (by omega)]
  · rw [Array.getElem?_append_right (by omega), getElem?_from, rest i (by omega)]
    congr 1
    omega

end TensorGraph.Kernel
