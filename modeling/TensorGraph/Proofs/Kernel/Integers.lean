import Mathlib.Algebra.Ring.Int.Defs
import TensorGraph.Proofs.Kernel.Accumulation
import TensorGraph.Proofs.Kernel.Lanes

/-! Integers wrap. What a kernel adds and multiplies is exact modulo the width of the kind, so the order of sums
does not show, and an element of a product of matrices is the exact sum of products, reduced once. -/
namespace TensorGraph

open Checked Kernel

/-- The integer in the range of a kind that differs from this one by a multiple of the number of its words. -/
def Kind.wrap (k : Kind) (z : Int) : Int := if k.isSigned then z.bmod (2 ^ k.bits) else z % (2 ^ k.bits : Nat)

theorem Kind.wrap_add {k : Kind} {a b : Int} : k.wrap (k.wrap a + k.wrap b) = k.wrap (a + b) := by
  unfold wrap
  split
  · rw [Int.bmod_add_bmod, Int.add_bmod_bmod]
  · exact (Int.add_emod a b _).symm

/-- The number that an element of an integer kind stands for. -/
def Elem.int? : {k : Kind} → Elem k → Option Int
  | .u8, x => some x.toNat
  | .u32, x => some x.toNat
  | .i32, x => some x.toInt
  | .i64, x => some x.toInt
  | .f16, _ | .bf16, _ | .f32, _ | .f64, _ => none

namespace Elem

variable {k : Kind} {x y : Elem k} {a b : Int}

theorem exists_int (int : ¬ k.isFloat) (x : Elem k) : ∃ a, x.int? = some a := by
  cases k with
  | u8 | u32 | i32 | i64 => exact ⟨_, rfl⟩
  | f16 | bf16 | f32 | f64 => exact absurd rfl int

theorem int?_zero (int : ¬ k.isFloat) : (Scalar.zero : Elem k).int? = some (k.wrap 0) := by
  cases k with
  | u8 | u32 | i32 | i64 => rfl
  | f16 | bf16 | f32 | f64 => exact absurd rfl int

/-- Elements are added and multiplied as the numbers that they stand for, and the results wrap. -/
theorem int?_arithmetic (left : x.int? = some a) (right : y.int? = some b) :
    (Scalar.add x y).int? = some (k.wrap (a + b)) ∧ (Scalar.mul x y).int? = some (k.wrap (a * b)) := by
  have unsigned : ∀ {m n : Nat}, m = n → some (m : Int) = some (n : Int) := fun same => by rw [same]
  cases k with
  | u8 =>
    cases left
    cases right
    exact ⟨unsigned (UInt8.toNat_add x y), unsigned (UInt8.toNat_mul x y)⟩
  | u32 =>
    cases left
    cases right
    exact ⟨unsigned (UInt32.toNat_add x y), unsigned (UInt32.toNat_mul x y)⟩
  | i32 =>
    cases left
    cases right
    exact ⟨congrArg some (Int32.toInt_add x y), congrArg some (Int32.toInt_mul x y)⟩
  | i64 =>
    cases left
    cases right
    exact ⟨congrArg some (Int64.toInt_add x y), congrArg some (Int64.toInt_mul x y)⟩
  | f16 | bf16 | f32 | f64 => cases left

end Elem

/-- The number at those coordinates of a tensor of integers. -/
def Tensor.int? (t : Tensor) (c : List Nat) : Option Int := (t.get? t.kind c).bind Elem.int?

theorem Tensor.int?_of_kind {t : Tensor} {kind : Kind} (kindOf : t.kind = kind) (c : List Nat) :
    t.int? c = (t.get? kind c).bind Elem.int? := by
  subst kindOf
  rfl

namespace Kernel

/-- A sum that wraps after every step is the exact sum, reduced once. -/
theorem int?_plainSum {k : Kind} (int : ¬ k.isFloat) {xs : List (Elem k)} {zs : List Int}
    (each : List.Forall₂ (fun x z => x.int? = some (k.wrap z)) xs zs) :
    (plainSum xs).int? = some (k.wrap zs.sum) := by
  have sums : ∀ {x : Elem k} {z : Int}, x.int? = some (k.wrap z) →
      (xs.foldl Scalar.add x).int? = some (k.wrap (z + zs.sum)) := by
    induction each with
    | nil =>
      intro x z start
      rw [List.sum_nil, Int.add_zero]
      exact start
    | @cons y w xs zs here _ ih =>
      intro x z start
      have next := (Elem.int?_arithmetic start here).1
      rw [Kind.wrap_add] at next
      rw [List.sum_cons, ← Int.add_assoc]
      exact ih next
  have whole := sums (Elem.int?_zero int)
  rwa [Int.zero_add] at whole

section Sums

variable {m m' : MathMode}

/-- Buffers of any contents and extents are reduced to the same with options that differ in the order of sums. -/
theorem reduce_congr (agrees : m.Agrees m') {f : Reduction} {axis : Option Nat} {args : KernelArgs}
    (orderless : (Op.reduce f axis).Orderless args.out.kind) :
    reduce (.reduce f axis) { args with math := m } = reduce (.reduce f axis) { args with math := m' } := by
  simp only [reduce, requireInput, reduceLane_congr agrees orderless]

/-- Over integers, pairwise sums are sums from left to right. Lists of any length have one sum, the kernel of a
reduction treats all buffers, extents and axes alike with and without that option, and so does a run on any tensor,
which has a result for each axis unless the tensor has no elements and its sizes are out of range. -/
theorem pairwise_sums_integers [BlockRoutine] {kind : Kind} (int : ¬ kind.isFloat) (f : Reduction) (axis : Option Nat)
    (math : MathMode) :
    (∀ xs : List (Elem kind), pairwiseSum xs = plainSum xs) ∧
      (∀ args : KernelArgs, args.out.kind = kind →
        reduce (.reduce f axis) { args with math := { math with pairwiseSum := true } } =
          reduce (.reduce f axis) { args with math := { math with pairwiseSum := false } }) ∧
      ∀ t : Tensor, t.kind = kind → (∀ a ∈ axis, a < t.shape.length) →
        Kernels.host.run (.reduce f axis) [t] { math with pairwiseSum := true } =
            Kernels.host.run (.reduce f axis) [t] { math with pairwiseSum := false } ∧
          ((∃ r, Kernels.host.run (.reduce f axis) [t] { math with pairwiseSum := true } = .ok r) ∨
            t.shape.volume = 0 ∧
              Kernels.host.run (.reduce f axis) [t] { math with pairwiseSum := true } = .error .crash) := by
  have agrees : MathMode.Agrees { math with pairwiseSum := true } { math with pairwiseSum := false } := ⟨rfl, rfl⟩
  refine ⟨pairwiseSum_eq (Kind.groups_of_int int), ?_, ?_⟩
  · rintro args rfl
    exact reduce_congr agrees fun _ _ => int
  · rintro t rfl inRange
    have computes : ¬ (Op.reduce f axis).isTransfer := Bool.false_ne_true
    have orderless : ∀ u ∈ [t], (Op.reduce f axis).Orderless u.kind := fun u member => by
      rw [List.mem_singleton.mp member]
      exact fun _ _ => int
    have same := Op.eval_congr agrees orderless
    rw [Op.eval_computed computes, Op.eval_computed computes] at same
    refine ⟨same, ?_⟩
    rcases Op.run_reduce f inRange { math with pairwiseSum := true } with ⟨r, ran, -⟩ | ⟨empty, -, crash⟩
    · exact .inl ⟨r, ran⟩
    · exact .inr ⟨empty, crash⟩

section

open scoped BlockRoutine

/-- Nine bytes of 100, added up in one of two columns. -/
theorem pairwise_sums_integers_columns :
    let t : Tensor := ⟨[9, 2], ⟨.u8, .replicate 18 100⟩, rfl, rfl⟩
    ¬ Kind.u8.isFloat ∧ t.kind = .u8 ∧ (∀ a ∈ some 0, a < t.shape.length) ∧
      pairwiseSum (List.replicate 9 (100 : Elem .u8)) = (132 : UInt8) ∧
      ∃ r, Kernels.host.run (.reduce .sum (some 0)) [t] { pairwiseSum := true } = .ok r ∧
        Kernels.host.run (.reduce .sum (some 0)) [t] {} = .ok r := by
  intro t
  have int : ¬ Kind.u8.isFloat := Bool.false_ne_true
  have inRange : ∀ a ∈ some 0, a < t.shape.length := by decide
  obtain ⟨sums, -, each⟩ := pairwise_sums_integers int .sum (some 0) {}
  obtain ⟨same, ⟨r, ran⟩ | ⟨empty, -⟩⟩ := each t rfl inRange
  · exact ⟨int, rfl, inRange, (sums _).trans rfl, r, ran, same.symm.trans ran⟩
  · cases empty

end

end Sums

section Products

variable {t u r : Tensor} {lead : Shape} {m k n : Nat}

theorem productDims?_lead (few : lead.length ≤ 1) :
    productDims? (lead ++ [m, k]) (lead ++ [k, n]) = some ⟨lead.volume, m, n, k⟩ ∧
      Op.productShape? (lead ++ [m, k]) (lead ++ [k, n]) = some (lead ++ [m, n]) := by
  match lead, few with
  | [], _ => simp [productDims?, Op.productShape?, Shape.volume]
  | [b], _ => simp [productDims?, Op.productShape?, Shape.volume]

/-- The place of an element of one of several matrices. -/
theorem place_matrix {c : List Nat} (inside : lead.Inside c) (rows cols i j : Nat) :
    (lead ++ [rows, cols]).place (c ++ [i, j]) = lead.place c * rows * cols + i * cols + j := by
  rw [Shape.place_append inside.length_eq]
  simp [Shape.place, Shape.volume, Nat.mul_assoc, Nat.add_assoc]

/-- A place tells the matrix, the row and the column. -/
theorem place_parts {b i j : Nat} (row : i < m) (col : j < n) :
    (b * m * n + i * n + j) / (m * n) = b ∧ (b * m * n + i * n + j) / n % m = i ∧ (b * m * n + i * n + j) % n = j := by
  have rows : b * m * n + i * n + j = (b * m + i) * n + j := by rw [Nat.add_mul]
  refine ⟨?_, ?_, ?_⟩
  · rw [Nat.mul_assoc, Nat.add_assoc]
    exact Shape.row_div (flat_lt row col)
  · rw [rows, Shape.row_div col, Shape.row_mod row]
  · rw [rows, Shape.row_mod col]

/-- Integers are not multiplied in blocks. -/
theorem not_multipliesBlocks {kind : Kind} (int : ¬ kind.isFloat) : ¬ multipliesBlocks kind := by
  cases kind with
  | u8 | u32 | i32 | i64 => exact Bool.false_ne_true
  | f16 | bf16 | f32 | f64 => exact absurd rfl int

/-- The elements of a product are sums of products of the elements that the kernel reads. -/
theorem matmul_elem? [BlockRoutine] (single : ¬ multipliesBlocks t.kind) {math : MathMode} {d : ProductDims} (dims : productDims? t.shape u.shape = some d)
    (size : r.shape.volume = d.batches * d.rows * d.cols) (ran : Op.matmul.eval math [t, u] = .ok r) :
    r.kind = t.kind ∧ ∀ i < r.shape.volume, ∃ terms,
      ((List.range d.inner).mapM fun p => do
        let x ← t.elem? t.kind (i / (d.rows * d.cols) * d.rows * d.inner + i / d.cols % d.rows * d.inner + p)
        let y ← u.elem? t.kind (i / (d.rows * d.cols) * d.inner * d.cols + p * d.cols + i % d.cols)
        some (Scalar.mul x y)) = some terms ∧
      r.elem? t.kind i = some (plainSum terms) := by
  have computes : ¬ Op.matmul.isTransfer := Bool.false_ne_true
  obtain ⟨first, rest, kind, split, kindOf, computed⟩ := Op.kernel_of_eval matmul computes rfl ran
  obtain ⟨rfl, rfl⟩ := List.cons_eq_cons.mp split
  obtain rfl : kind = t.kind := kindOf
  simp only [matmul, requireInput, List.map_cons, List.map_nil, item_zero, item_one, ok_bind, dims] at computed
  obtain ⟨xs, viewedLeft, computed⟩ := bind_eq_ok.mp computed
  obtain ⟨ys, viewedRight, computed⟩ := bind_eq_ok.mp computed
  split at computed
  · cases computed
  obtain ⟨filled, ranFill, whole⟩ := bind_eq_ok.mp computed
  simp only [multiplied, if_neg single, ← size] at ranFill
  refine ⟨(congrArg Data.kind (Except.ok.inj whole)).symm, fun i inRange => ?_⟩
  obtain ⟨sum, here, atPlace⟩ := Op.filled_elem? ranFill inRange
  obtain ⟨terms, found, added⟩ := Option.bind_eq_some_iff.mp here
  cases added
  refine ⟨terms, ?_, ?_⟩
  · simp only [Tensor.elem?, viewedLeft, viewedRight]
    exact found
  · rw [Tensor.elem?_of_data (Except.ok.inj whole).symm, atPlace]

/-- A product gets its shape as soon as there may be memory for it. -/
theorem outputShape_matmul (few : lead.length ≤ 1) (left : t.shape = lead ++ [m, k]) (right : u.shape = lead ++ [k, n]) :
    Op.matmul.outputShape ([t, u].map Tensor.shape) = .ok (lead ++ [m, n]) ∧
      (Shape.fits (lead ++ [m, n]) → Op.matmul.counts ([t, u].map Tensor.shape)) := by
  obtain ⟨-, product⟩ := productDims?_lead (m := m) (k := k) (n := n) few
  rw [← left, ← right] at product
  constructor
  · simp [Op.outputShape, Op.arity, product]
  · intro fits
    simp [Op.counts, product, Shape.counts_of_fits fits]

/-- Products of matrices, or of batches of them, have a result. Its elements are sums over the inner axis. -/
theorem run_matmul [BlockRoutine] (single : ¬ multipliesBlocks t.kind) (same : u.kind = t.kind)
    (few : lead.length ≤ 1) (left : t.shape = lead ++ [m, k]) (right : u.shape = lead ++ [k, n])
    (fits : Shape.fits (lead ++ [m, n])) (math : MathMode) :
    ∃ r, Kernels.host.run .matmul [t, u] math = .ok r ∧ r.kind = t.kind ∧ r.shape = lead ++ [m, n] ∧
      ∀ c i j, lead.Inside c → i < m → j < n → ∃ terms,
        ((List.range k).mapM fun p => do
          let x ← t.get? t.kind (c ++ [i, p])
          let y ← u.get? t.kind (c ++ [p, j])
          some (Scalar.mul x y)) = some terms ∧
        r.get? t.kind (c ++ [i, j]) = some (plainSum terms) := by
  have computes : ¬ Op.matmul.isTransfer := Bool.false_ne_true
  obtain ⟨dims, product⟩ := productDims?_lead (m := m) (k := k) (n := n) few
  rw [← left, ← right] at dims product
  obtain ⟨shaped, counts⟩ := outputShape_matmul few left right
  have result := Op.resultShape_eq_ok.mpr ⟨shaped, counts fits, fits⟩
  obtain ⟨r, ran, shape, -⟩ := Op.eval_of_completes computes rfl rfl result (matmul_total rfl same product math)
  have size : r.shape.volume = lead.volume * m * n := by
    rw [shape, Shape.volume_append, Nat.mul_assoc]
    simp [Shape.volume]
  obtain ⟨kind, elems⟩ := matmul_elem? single dims size ran
  rw [Op.eval_computed computes] at ran
  refine ⟨r, ran, kind, shape, fun c i j inside row col => ?_⟩
  have insideR : r.shape.Inside (c ++ [i, j]) := by
    rw [shape]
    exact inside.append (.cons row (.cons col .nil))
  obtain ⟨terms, found, value⟩ := elems _ (Shape.place_lt insideR)
  refine ⟨terms, ?_, value⟩
  obtain ⟨batch, rowOf, colOf⟩ := place_parts (b := lead.place c) row col
  rw [shape, place_matrix inside] at found
  simp only [batch, rowOf, colOf] at found
  rw [← found]
  refine mapM_congr fun p _ => ?_
  simp only [Tensor.get?, left, right, place_matrix inside]

/-- A product depends on the data of its operands and on the dimensions. -/
theorem matmul_flat [BlockRoutine] (t u t' u' : Tensor) (lefts : t'.data = t.data) (rights : u'.data = u.data) {d : ProductDims}
    (dims : productDims? t.shape u.shape = some d) (dims' : productDims? t'.shape u'.shape = some d) {s s' : Shape}
    (volume : s'.volume = s.volume) (kind : Kind) (math : MathMode) :
    matmul .matmul (exactly [t', u'] kind s' math) = matmul .matmul (exactly [t, u] kind s math) := by
  simp only [matmul, requireInput, exactly, List.map_cons, List.map_nil, item_zero, item_one, ok_bind, dims, dims',
    lefts, rights, volume]

theorem volume_one (s : Shape) : Shape.volume (1 :: s) = s.volume := Nat.one_mul _

theorem fits_one (s : Shape) : Shape.fits (1 :: s) = s.fits := by
  rw [Shape.fits, Shape.fits, volume_one]
  rfl

/-- A tensor is viewed as a batch of one. -/
theorem reshape_one (t : Tensor) {s : Shape} (shape : t.shape = s) : ∃ t' : Tensor, t.reshape (1 :: s) = .ok t' ∧
    t'.shape = 1 :: s ∧ t'.data = t.data := by
  subst shape
  have fits : Shape.fits (1 :: t.shape) := (fits_one _).trans t.fits
  have size : t.data.size = Shape.volume (1 :: t.shape) := by rw [volume_one, t.size_eq]
  exact ⟨⟨1 :: t.shape, t.data, size, fits⟩, by simp [Tensor.reshape, Shape.counts_of_fits fits, size, fits], rfl, rfl⟩

/-- Two matrices are multiplied as a batch of one pair is. -/
theorem run_matmul_single [BlockRoutine] (single : ¬ multipliesBlocks t.kind) (same : u.kind = t.kind)
    (left : t.shape = [m, k]) (right : u.shape = [k, n]) {math : MathMode} (ran : Kernels.host.run .matmul [t, u] math = .ok r) (shape : r.shape = [m, n]) :
    ∃ t' u' r', t.reshape [1, m, k] = .ok t' ∧ u.reshape [1, k, n] = .ok u' ∧
      Kernels.host.run .matmul [t', u'] math = .ok r' ∧ r.reshape [1, m, n] = .ok r' := by
  have computes : ¬ Op.matmul.isTransfer := Bool.false_ne_true
  obtain ⟨t', viewLeft, leftShape, leftData⟩ := reshape_one t left
  obtain ⟨u', viewRight, rightShape, rightData⟩ := reshape_one u right
  obtain ⟨r'', viewResult, resultShape, resultData⟩ := reshape_one r shape
  have none : ([] : Shape).length ≤ 1 := Nat.zero_le 1
  have one : ([1] : Shape).length ≤ 1 := Nat.le_refl 1
  have kinds : t'.kind = t.kind ∧ u'.kind = u.kind := ⟨congrArg Data.kind leftData, congrArg Data.kind rightData⟩
  have fits : Shape.fits ([1] ++ [m, n]) := by
    rw [List.singleton_append, fits_one, ← shape]
    exact r.fits
  obtain ⟨r', ran', -, shape', -⟩ := run_matmul (kinds.1 ▸ single) (kinds.2.trans (same.trans kinds.1.symm)) one
    leftShape rightShape fits math
  refine ⟨t', u', r', viewLeft, viewRight, ran', ?_⟩
  rw [← Op.eval_computed computes] at ran ran'
  obtain ⟨_, _, kind, split, kindOf, computed⟩ := Op.kernel_of_eval matmul computes rfl ran
  obtain ⟨rfl, rfl⟩ := List.cons_eq_cons.mp split
  obtain ⟨_, _, kind', split', kindOf', computed'⟩ := Op.kernel_of_eval matmul computes rfl ran'
  obtain ⟨rfl, rfl⟩ := List.cons_eq_cons.mp split'
  obtain rfl : kind' = kind := kindOf'.trans (kinds.1.trans kindOf.symm)
  have dims : productDims? ([] ++ [m, k]) ([] ++ [k, n]) = some ⟨1, m, n, k⟩ := (productDims?_lead none).1
  have dims' : productDims? ([1] ++ [m, k]) ([1] ++ [k, n]) = some ⟨1, m, n, k⟩ := (productDims?_lead one).1
  have volume : r'.shape.volume = r.shape.volume := by
    rw [shape', shape]
    exact volume_one _
  have same := matmul_flat t u t' u' leftData rightData (by rw [left, right]; exact dims)
    (by rw [leftShape, rightShape]; exact dims') volume kind' math
  have data : r'.data = r.data := Except.ok.inj ((computed'.symm.trans same).trans computed)
  rw [viewResult]
  cases r''
  cases r'
  cases resultShape
  cases shape'
  cases resultData.trans data.symm
  rfl

/-- Products of elements stand for the products of the numbers that the elements stand for. -/
theorem int?_products {kind : Kind} (int : ¬ kind.isFloat) {f g : Nat → Option (Elem kind)} {ps : List Nat}
    {terms : List (Elem kind)} (found : (ps.mapM fun p => do
      let x ← f p
      let y ← g p
      some (Scalar.mul x y)) = some terms) :
    ∃ xs ys, ps.mapM (fun p => (f p).bind Elem.int?) = some xs ∧ ps.mapM (fun p => (g p).bind Elem.int?) = some ys ∧
      List.Forall₂ (fun term z => term.int? = some (kind.wrap z)) terms (List.zipWith (· * ·) xs ys) := by
  induction mapM_eq_some.mp found with
  | nil => exact ⟨[], [], rfl, rfl, .nil⟩
  | @cons p term ps terms here rest ih =>
    obtain ⟨x, atX, here⟩ := Option.bind_eq_some_iff.mp here
    obtain ⟨y, atY, here⟩ := Option.bind_eq_some_iff.mp here
    cases here
    obtain ⟨a, left⟩ := Elem.exists_int int x
    obtain ⟨b, right⟩ := Elem.exists_int int y
    obtain ⟨xs, ys, lefts, rights, each⟩ := ih (mapM_eq_some.mpr rest)
    refine ⟨a :: xs, b :: ys, mapM_eq_some.mpr (.cons ?_ (mapM_eq_some.mp lefts)),
      mapM_eq_some.mpr (.cons ?_ (mapM_eq_some.mp rights)), .cons (Elem.int?_arithmetic left right).2 each⟩
    · rw [atX, Option.bind_some, left]
    · rw [atY, Option.bind_some, right]

/-- A product of integer matrices is exact modulo the width of the kind. Its element in a row and a column is the sum of
the products of the numbers there, taken without bounds and reduced once to the range of the kind, in each matrix of
a batch or of the one pair of matrices, which is the case of one batch. A product that no memory has room for, or whose
elements cannot be counted, is a crash. -/
theorem matmul_wraps_exact_sums [BlockRoutine] (int : ¬ t.kind.isFloat) (same : u.kind = t.kind) (few : lead.length ≤ 1)
    (left : t.shape = lead ++ [m, k]) (right : u.shape = lead ++ [k, n]) (math : MathMode) :
    (∃ r, Kernels.host.run .matmul [t, u] math = .ok r ∧ r.kind = t.kind ∧ r.shape = lead ++ [m, n] ∧
      (∀ c i j, lead.Inside c → i < m → j < n → ∃ row col,
        (List.range k).mapM (fun p => t.int? (c ++ [i, p])) = some row ∧
        (List.range k).mapM (fun p => u.int? (c ++ [p, j])) = some col ∧
        r.int? (c ++ [i, j]) = some (t.kind.wrap (List.zipWith (· * ·) row col).sum)) ∧
      (lead = [] → ∃ t' u' r', t.reshape [1, m, k] = .ok t' ∧ u.reshape [1, k, n] = .ok u' ∧
        Kernels.host.run .matmul [t', u'] math = .ok r' ∧ r.reshape [1, m, n] = .ok r')) ∨
    ¬ Shape.fits (lead ++ [m, n]) ∧ Kernels.host.run .matmul [t, u] math = .error .crash := by
  by_cases fits : Shape.fits (lead ++ [m, n])
  swap
  · obtain ⟨shaped, -⟩ := outputShape_matmul few left right
    have computes : ¬ Op.matmul.isTransfer := Bool.false_ne_true
    exact .inr ⟨fits, Op.run_of_resultShape_error computes
      (Op.resultShape_crash shaped fun counted => fits counted.2) math⟩
  have single := not_multipliesBlocks int
  obtain ⟨r, ran, kind, shape, elems⟩ := run_matmul single same few left right fits math
  refine .inl ⟨r, ran, kind, shape, fun c i j inside row col => ?_, ?_⟩
  · obtain ⟨terms, found, value⟩ := elems c i j inside row col
    obtain ⟨xs, ys, lefts, rights, each⟩ := int?_products int found
    refine ⟨xs, ys, lefts, ?_, ?_⟩
    · simpa only [Tensor.int?_of_kind same] using rights
    · rw [Tensor.int?_of_kind kind, value, Option.bind_some, int?_plainSum int each]
  · rintro rfl
    exact run_matmul_single single same left right ran shape

section

open scoped BlockRoutine

/-- The second of two products of a row and a column, whose exact sum of 4000000000 is beyond the range of the kind. -/
theorem matmul_wraps_exact_sums_overflowing :
    let t : Tensor := ⟨[2, 1, 2], ⟨.i32, #[1, 2, 40000, 60000]⟩, rfl, rfl⟩
    let u : Tensor := ⟨[2, 2, 1], ⟨.i32, #[3, 4, 40000, 40000]⟩, rfl, rfl⟩
    ¬ t.kind.isFloat ∧ u.kind = t.kind ∧ [2].length ≤ 1 ∧ t.shape = [2] ++ [1, 2] ∧ u.shape = [2] ++ [2, 1] ∧
      ∃ r, Kernels.host.run .matmul [t, u] {} = .ok r ∧ r.shape = [2, 1, 1] ∧ r.int? [1, 0, 0] = some (-294967296) := by
  intro t u
  have int : ¬ t.kind.isFloat := Bool.false_ne_true
  have same : u.kind = t.kind := rfl
  have one : ([2] : Shape).length ≤ 1 := Nat.le_refl 1
  have batched : t.shape = [2] ++ [1, 2] ∧ u.shape = [2] ++ [2, 1] := ⟨rfl, rfl⟩
  obtain ⟨r, ran, -, shape, elems, -⟩ := (matmul_wraps_exact_sums int same one batched.1 batched.2 {}).resolve_right
    fun crash => crash.1 rfl
  obtain ⟨row, col, rowOf, colOf, value⟩ := elems [1] 0 0 (.cons (by decide) .nil) (by decide) (by decide)
  cases (show (List.range 2).mapM (fun p => t.int? ([1] ++ [0, p])) = some [40000, 60000] from rfl).symm.trans rowOf
  cases (show (List.range 2).mapM (fun p => u.int? ([1] ++ [p, 0])) = some [40000, 40000] from rfl).symm.trans colOf
  exact ⟨int, same, one, batched.1, batched.2, r, ran, shape, value.trans (by decide)⟩

/-- Matrices without elements, of whose product a machine word cannot count the elements. -/
theorem product_beyond_words :
    let t : Tensor := ⟨[4294967296, 0], ⟨.i32, #[]⟩, rfl, rfl⟩
    let u : Tensor := ⟨[0, 4294967296], ⟨.i32, #[]⟩, rfl, rfl⟩
    ¬ t.kind.isFloat ∧ u.kind = t.kind ∧ Kernels.host.run .matmul [t, u] {} = .error .crash :=
  ⟨Bool.false_ne_true, rfl, rfl⟩

end

end Products

end Kernel

end TensorGraph
