import TensorGraph.Proofs.Graph.Value

/-! The order of sums. Only a sum or a mean over a float kind shows it: integers add up to the same in any grouping, and
all other operations do not look at that option. -/
namespace TensorGraph

open Checked Kernel

/-- Options that differ in the order of sums at most. -/
structure MathMode.Agrees (m m' : MathMode) : Prop where
  fastTranscendentals : m.fastTranscendentals = m'.fastTranscendentals
  flushDenormals : m.flushDenormals = m'.flushDenormals

/-- On elements of this kind the operation is not a sum that shows its order. -/
def Op.Orderless (op : Op) (k : Kind) : Prop :=
  ∀ axis, op = .reduce .sum axis ∨ op = .reduce .mean axis → ¬ k.isFloat

/-- Elements that add up to the same in any grouping. -/
structure Kind.Groups (k : Kind) : Prop where
  assoc : Std.Associative (Scalar.add : Elem k → Elem k → Elem k)
  zero : ∀ x : Elem k, Scalar.add x Scalar.zero = x

theorem Kind.groups_of_int {k : Kind} (int : ¬ k.isFloat) : k.Groups := by
  cases k with
  | u8 => exact ⟨⟨UInt8.add_assoc⟩, UInt8.add_zero⟩
  | u32 => exact ⟨⟨UInt32.add_assoc⟩, UInt32.add_zero⟩
  | i32 => exact ⟨⟨Int32.add_assoc⟩, Int32.add_zero⟩
  | i64 => exact ⟨⟨Int64.add_assoc⟩, Int64.add_zero⟩
  | f16 => exact absurd rfl int
  | bf16 => exact absurd rfl int
  | f32 => exact absurd rfl int
  | f64 => exact absurd rfl int

variable {m m' : MathMode}

namespace Kernel

section Sums

variable {k : Kind}

theorem plainSum_append (groups : k.Groups) (xs ys : List (Elem k)) :
    plainSum (xs ++ ys) = Scalar.add (plainSum xs) (plainSum ys) := by
  have := groups.assoc
  rw [plainSum, List.foldl_append, ← plainSum]
  calc ys.foldl Scalar.add (plainSum xs)
      = ys.foldl Scalar.add (Scalar.add (plainSum xs) Scalar.zero) := by rw [groups.zero]
    _ = Scalar.add (plainSum xs) (plainSum ys) := List.foldl_assoc

/-- A balanced tree adds up to what adding from left to right does. -/
theorem pairwiseSum_eq (groups : k.Groups) (xs : List (Elem k)) : pairwiseSum xs = plainSum xs := by
  fun_induction pairwiseSum xs with
  | case1 xs short => rfl
  | case2 xs long left right => rw [left, right, ← plainSum_append groups, List.take_append_drop]

theorem reduceLane_congr (agrees : m.Agrees m') {f : Reduction} {axis : Option Nat}
    (orderless : (Op.reduce f axis).Orderless k) (lane : List (Elem k)) :
    reduceLane f m lane = reduceLane f m' lane := by
  have finish : m.finish (α := Elem k) = m'.finish := by
    funext x
    rw [MathMode.finish, MathMode.finish, agrees.flushDenormals]
  have sums : f = .sum ∨ f = .mean → ∀ m : MathMode,
      (if m.pairwiseSum then pairwiseSum lane else plainSum lane) = plainSum lane := fun isSum m => by
    rw [pairwiseSum_eq (Kind.groups_of_int (orderless axis (isSum.imp (by rintro rfl; rfl) (by rintro rfl; rfl)))),
      ite_self]
  cases f with
  | sum => simp only [reduceLane, sums (.inl rfl), finish]
  | mean => simp only [reduceLane, sums (.inr rfl), finish]
  | max => simp only [reduceLane, finish]
  | min => simp only [reduceLane, finish]

end Sums

section Elementwise

variable {α : Type} [Scalar α]

theorem unary_congr (agrees : m.Agrees m') (f : Unary) : m.unary (α := α) f = m'.unary f := by
  funext x
  rw [MathMode.unary, MathMode.unary, MathMode.finish, MathMode.finish, agrees.flushDenormals,
    agrees.fastTranscendentals]

theorem binary_congr (agrees : m.Agrees m') (f : Binary) : m.binary (α := α) f = m'.binary f := by
  funext x y
  rw [MathMode.binary, MathMode.binary, MathMode.finish, MathMode.finish, agrees.flushDenormals]

theorem stepRows_congr (agrees : m.Agrees m') (srcs : List (Source α)) (base : Nat) (block : List α)
    (rows : List (List α)) (steps : List Step) :
    stepRows m srcs base block rows steps = stepRows m' srcs base block rows steps := by
  induction steps generalizing rows with
  | nil => rfl
  | cons step steps ih =>
    have row : stepRow m srcs base block rows step = stepRow m' srcs base block rows step := by
      cases step with
      | load i => rfl
      | unary f a => simp only [stepRow, unary_congr agrees]
      | binary f a b => simp only [stepRow, binary_congr agrees]
    simp only [stepRows, row, ih]

theorem runBlocks_congr (agrees : m.Agrees m') (steps : List Step) (srcs : List (Source α)) (size base : Nat)
    (old : List α) : runBlocks m steps srcs size base old = runBlocks m' steps srcs size base old := by
  fun_induction runBlocks m steps srcs size base old with
  | case1 base old more ih =>
    conv_rhs => rw [runBlocks]
    simp only [dif_pos more, ih, runBlock, stepRows_congr agrees]
  | case2 base old done =>
    conv_rhs => rw [runBlocks]
    rw [dif_neg done]

end Elementwise

end Kernel

variable [BlockRoutine]

namespace Op

/-- Without an order to show, a kernel computes the same for options that differ in it only. -/
theorem reference_congr (agrees : m.Agrees m') {op : Op} {kernel : Kernel}
    (found : Kernels.reference? op.family = some kernel)
    {kind : Kind} (orderless : op.Orderless kind) (ts : List Tensor) (shape : Shape) :
    kernel op (exactly ts kind shape m) = kernel op (exactly ts kind shape m') := by
  cases op with
  | unary f =>
    cases found
    simp only [Kernel.unary, unary_congr agrees]
  | binary f =>
    cases found
    simp only [Kernel.binary, binary_congr agrees]
  | fused e =>
    cases found
    simp only [Kernel.fused, exactly, runBlocks_congr agrees]
    split
    · rfl
    split
    · rfl
    refine bind_congr fun srcs => ?_
    -- The two matches are on lists of types that agree only once the arguments are reduced.
    cases runBlocks m' e.steps srcs blockSize 0
      ((Array.replicate shape.volume (Scalar.zero (α := Elem kind))).extract 0 shape.volume).toList with
    | none => rfl
    | some xs => rfl
  | reduce f axis =>
    cases found
    simp only [Kernel.reduce, requireInput, exactly, reduceLane_congr agrees orderless]
  | toDevice n => cases found
  | toHost => cases found
  | _ =>
    cases found
    rfl

theorem kernel_congr (agrees : m.Agrees m') {op : Op} {kernel : Kernel}
    (found : Kernels.host.get? op.family = some kernel)
    {kind : Kind} (orderless : op.Orderless kind) (ts : List Tensor) (shape : Shape) :
    kernel op (exactly ts kind shape m) = kernel op (exactly ts kind shape m') := by
  obtain ⟨plain, listed, rfl⟩ := exists_reference found
  have same := reference_congr agrees listed orderless ts shape
  unfold counted
  rw [same]

/-- Nor does the value of the operation show it. -/
theorem eval_congr (agrees : m.Agrees m') {op : Op} {ts : List Tensor} (orderless : ∀ t ∈ ts, op.Orderless t.kind) :
    op.eval m ts = op.eval m' ts := by
  by_cases moves : op.isTransfer
  · rw [eval_transfer moves, eval_transfer moves]
  · rw [eval_computed moves, eval_computed moves]
    obtain ⟨kernel, found⟩ := exists_kernel moves
    cases ts with
    | nil =>
      unfold Kernels.run
      rw [lookup_eq_ok.mpr found]
    | cons first rest =>
      have result : op.Orderless (op.resultKind first.kind) := by
        intro axis isSum
        have kind : op.resultKind first.kind = first.kind := by rcases isSum with rfl | rfl <;> rfl
        rw [kind]
        exact orderless first (List.mem_cons_self ..) axis isSum
      simp only [run_eq found, kernel_congr agrees found result]

end Op

namespace Graph.Sound

variable {g : Graph} {d : Discipline} {b : Binding} {math math' : Place → MathMode}

end Graph.Sound

end TensorGraph
