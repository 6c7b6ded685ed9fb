import TensorGraph.Kernel.Reduce

/-!
Products of matrices and of batches of matrices, stored row by row. For most kinds an output element
is the sum of its products from left to right, rounded after every step. Two kinds leave each pair of
matrices to a routine for blocks, which may sum in any order.
-/

namespace TensorGraph

namespace Kernel

/-- The arrays hold the same at their first `n` places. -/
def SameStart {α : Type} (n : Nat) (xs ys : Array α) : Prop := ∀ i, i < n → xs[i]? = ys[i]?

theorem SameStart.extract_eq {α : Type} {n : Nat} {xs ys : Array α} (same : SameStart n xs ys) :
    xs.extract 0 n = ys.extract 0 n := by
  apply Array.ext_getElem?
  intro i
  have start (zs : Array α) : (zs.extract 0 n)[i]? = if i < n then zs[i]? else none := by
    rw [Array.getElem?_extract, Nat.sub_zero, Nat.zero_add]
    split <;> split <;> first | rfl | (rw [Array.getElem?_eq_none (by omega)])
  rw [start, start]
  split
  · exact same i ‹_›
  · rfl

/-- Multiplies a block of `rows × inner` elements by one of `inner × cols`, which the operands start
with, into the start of the output. -/
abbrev BlockProduct (α : Type) := (rows cols inner : Nat) → (lhs rhs out : Array α) → Array α

/-- The operands and the output start with blocks of those extents. -/
structure BlockProduct.Given {α : Type} (rows cols inner : Nat) (lhs rhs out : Array α) : Prop where
  lhs : rows * inner ≤ lhs.size
  rhs : inner * cols ≤ rhs.size
  out : rows * cols ≤ out.size

/-- The routine writes nothing outside of its block of the output, and what it writes there depends
on nothing outside of its blocks of the operands. -/
structure BlockProduct.Confined {α : Type} (multiply : BlockProduct α) : Prop where
  keeps : ∀ {rows cols inner : Nat} {lhs rhs out : Array α}, Given rows cols inner lhs rhs out →
    (multiply rows cols inner lhs rhs out).size = out.size ∧
      ∀ i, rows * cols ≤ i → (multiply rows cols inner lhs rhs out)[i]? = out[i]?
  depends : ∀ {rows cols inner : Nat} {lhs rhs out lhs' rhs' out' : Array α},
    Given rows cols inner lhs rhs out → Given rows cols inner lhs' rhs' out' →
    SameStart (rows * inner) lhs lhs' → SameStart (inner * cols) rhs rhs' →
    SameStart (rows * cols) (multiply rows cols inner lhs rhs out)
      (multiply rows cols inner lhs' rhs' out')

/-- Number of matrices, rows, columns and inner places of a product. -/
structure ProductDims where
  batches : Nat
  rows : Nat
  cols : Nat
  inner : Nat

/-- The dimensions of a product of operands with those shapes. -/
def productDims? : Shape → Shape → Option ProductDims
  | [m, k], [k', n] => if k = k' then some ⟨1, m, n, k⟩ else none
  | [b, m, k], [b', k', n] => if b = b' ∧ k = k' then some ⟨b, m, n, k⟩ else none
  | _, _ => none

/-- Whether the kind multiplies whole blocks at once and so needs its operands complete. -/
def multipliesBlocks : Kind → Bool
  | .f32 | .f64 => true
  | _ => false

/-- Whether the operands are long enough to start with: complete, or at least up to the first
element of every matrix. -/
def productInRange (kind : Kind) (d : ProductDims) (lhs rhs : Nat) : Bool :=
  if multipliesBlocks kind then
    d.batches * d.rows * d.inner ≤ lhs && d.batches * d.inner * d.cols ≤ rhs
  else
    (d.batches - 1) * d.rows * d.inner ≤ lhs && (d.batches - 1) * d.inner * d.cols ≤ rhs

/-- The product at inner place `p` for output place `i`. -/
def term? {α : Type} [Scalar α] (d : ProductDims) (lhs rhs : Array α) (i p : Nat) : Option α := do
  let batch := i / (d.rows * d.cols)
  let row := i / d.cols % d.rows
  let col := i % d.cols
  let x ← lhs[batch * d.rows * d.inner + row * d.inner + p]?
  let y ← rhs[batch * d.inner * d.cols + p * d.cols + col]?
  some (Scalar.mul x y)

/-- The sum of products for output place `i`, from left to right. -/
def productAt {α : Type} [Scalar α] (d : ProductDims) (lhs rhs : Array α) (i : Nat) : Option α := do
  let terms ← (List.range d.inner).mapM (term? d lhs rhs i)
  some (plainSum terms)

/-- The output after the first matrices of a batch, each of them left to a routine. -/
def productsBy {α : Type} (multiply : BlockProduct α) (d : ProductDims) (lhs rhs out : Array α) :
    Nat → Array α
  | 0 => out
  | b + 1 =>
    let done := productsBy multiply d lhs rhs out b
    let start := b * (d.rows * d.cols)
    done.extract 0 start ++ multiply d.rows d.cols d.inner
      (lhs.extract (b * (d.rows * d.inner)) lhs.size) (rhs.extract (b * (d.inner * d.cols)) rhs.size)
      (done.extract start done.size)

end Kernel

/-- The routine for the kinds that multiply whole blocks. It comes with the machine, and nothing is
known of it but that it keeps to its blocks. -/
class BlockRoutine where
  multiply : (kind : Kind) → Kernel.BlockProduct (Elem kind)
  confined : ∀ kind, (multiply kind).Confined

namespace Kernel

/-- The elements of a product, written over the start of the output. -/
def multiplied [BlockRoutine] (kind : Kind) (d : ProductDims) (lhs rhs out : Array (Elem kind)) :
    Except Error (Array (Elem kind)) :=
  if multipliesBlocks kind then
    if out.size < d.batches * (d.rows * d.cols) then .error .crash
    else .ok (productsBy (BlockRoutine.multiply kind) d lhs rhs out d.batches)
  else fill out (d.batches * d.rows * d.cols) fun i _ => productAt d lhs rhs i

def matmul [BlockRoutine] : Kernel
  | .matmul, args => do
    let lhs ← requireInput .matmul args 0
    let rhs ← requireInput .matmul args 1
    let ls ← item args.shapes 0
    let rs ← item args.shapes 1
    let some d := productDims? ls rs
      | throw (.shape "matmul"
          ("cannot multiply " ++ Text.numbers ls ++ " by " ++ Text.numbers rs))
    let kind := args.out.kind
    let xs ← lhs.view kind
    let ys ← rhs.view kind
    if !productInRange kind d xs.size ys.size then throw .crash
    let elems ← multiplied kind d xs ys args.out.elems
    return { args.out with elems }
  | op, _ => mismatch "matmul" op

end Kernel

end TensorGraph
