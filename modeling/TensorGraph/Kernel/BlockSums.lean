import TensorGraph.Kernel.MatMul

/-!
A routine for blocks that sums the products of each place from left to right. In small blocks the sum
starts from its first product and not from zero, so that a sum of negative zeros is negative.
-/

namespace TensorGraph

namespace Kernel

/-- Whether the sum starts from its first product: with one or two inner places, and for a single row
with two columns or more. -/
def startsFromFirst (rows cols inner : Nat) : Bool := inner ≤ 2 || (rows == 1 && cols != 1)

/-- The sum of the products for a place of a block. -/
def blockSum {α : Type} [Scalar α] (rows cols inner : Nat) (lhs rhs : Array α) (i : Nat) : α :=
  match (List.range inner).mapM (term? ⟨1, rows, cols, inner⟩ lhs rhs i) with
  | some terms => if startsFromFirst rows cols inner then combine Scalar.add terms else plainSum terms
  | none => Scalar.zero

/-- Sums the products of each place. -/
def sumOfProducts (α : Type) [Scalar α] : BlockProduct α := fun rows cols inner lhs rhs out =>
  let lhs := lhs.extract 0 (rows * inner)
  let rhs := rhs.extract 0 (inner * cols)
  ((List.range (rows * cols)).map (blockSum rows cols inner lhs rhs)).toArray ++
    out.extract (rows * cols) out.size

theorem confined_sumOfProducts (α : Type) [Scalar α] : (sumOfProducts α).Confined where
  keeps {rows cols inner lhs rhs out} given := by
    have fits := given.out
    constructor
    · simp [sumOfProducts]
      omega
    · intro i beyond
      rw [sumOfProducts, Array.getElem?_append_right (by simpa using beyond), Array.getElem?_extract]
      simp only [List.size_toArray, List.length_map, List.length_range]
      split
      · congr 1
        omega
      · rw [Array.getElem?_eq_none (by omega)]
  depends {rows cols inner lhs rhs out lhs' rhs' out'} _ _ left right := by
    intro i inStart
    rw [sumOfProducts, sumOfProducts, Array.getElem?_append_left (by simpa using inStart),
      Array.getElem?_append_left (by simpa using inStart), left.extract_eq, right.extract_eq]

end Kernel

namespace BlockRoutine

/-- Blocks are multiplied by sums from left to right. -/
scoped instance sums : BlockRoutine where
  multiply kind := Kernel.sumOfProducts (Elem kind)
  confined kind := Kernel.confined_sumOfProducts (Elem kind)

end BlockRoutine

end TensorGraph
