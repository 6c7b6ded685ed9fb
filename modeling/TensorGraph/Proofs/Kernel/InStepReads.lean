import TensorGraph.Proofs.Kernel.BlockProduct
import TensorGraph.Proofs.Kernel.InStep

/-! Kernels that read their operands at other places than they write, run twice on operands that give them the same
to read. None of them runs in place, and none reads beyond the value in a buffer. -/
namespace TensorGraph

open Checked

namespace Kernel

variable {kind : Kind} {old old' : Array (Elem kind)} {s shape : Shape} {math : MathMode} {o o' : Operand}
  {inPlace : Prop}

/-- The inputs of a kernel that does not run in place start alike, or it refuses both. -/
theorem input_inStep (apart : ¬ inPlace) {op : Op} {args args' : KernelArgs} {n i : Nat} (at_ : item args.inputs i = .ok o)
    (at' : item args'.inputs i = .ok o') (alike : o.Alike ⟨kind, old⟩ ⟨kind, old'⟩ n inPlace s o') :
    InStep (fun d d' => s.volume ≤ d.size ∧ s.volume ≤ d'.size ∧ d.start s.volume = d'.start s.volume)
      (requireInput op args i) (requireInput op args' i) := by
  obtain ⟨holds, holds', content, place⟩ := alike
  simp only [requireInput, at_, at', ok_bind]
  cases o with
  | buffer d =>
    cases o' with
    | buffer d' => exact .ok ⟨holds, holds', content⟩
    | output => simp [apart] at place
  | output =>
    cases o' with
    | buffer d' => simp [apart] at place
    | output =>
      simp only
      cases op.describe? with
      | some text => exact .error _
      | none => exact .error _

theorem cast_inStep (k : Kind) (apart : ¬ inPlace) (fits : shape.volume ≤ old.size) (fits' : shape.volume ≤ old'.size)
    (alike : o.Alike ⟨kind, old⟩ ⟨kind, old'⟩ shape.volume inPlace shape o') :
    InStep (Written kind old old' shape.volume) (cast (.cast k) ⟨[o], [shape], ⟨kind, old⟩, shape, math⟩)
      (cast (.cast k) ⟨[o'], [shape], ⟨kind, old'⟩, shape, math⟩) := by
  simp only [cast]
  refine (input_inStep apart rfl rfl alike).bind fun d d' related => ?_
  obtain ⟨room, room', same⟩ := related
  rw [if_neg (Nat.not_lt.mpr room), if_neg (Nat.not_lt.mpr room')]
  apply written_inStep
  apply fill_inStep fits fits'
  intro i inRange _ _ _ _
  rcases d with ⟨source, xs⟩
  rcases d' with ⟨source', ys⟩
  obtain rfl : source = source' := congrArg Data.kind same
  exact congrArg (Option.map (Elem.convert kind)) (Data.start_inj.mp same i inRange)

/-- Two values are copied in step to the start of two buffers. -/
theorem copyFrom_inStep {d d' : Data} {n : Nat} (fits : n ≤ old.size) (fits' : n ≤ old'.size) (room : n ≤ d.size)
    (room' : n ≤ d'.size) (same : d.start n = d'.start n) :
    InStep (Written kind old old' n) (Data.copyFrom ⟨kind, old⟩ d n) (Data.copyFrom ⟨kind, old'⟩ d' n) := by
  rcases d with ⟨k, xs⟩
  rcases d' with ⟨k', ys⟩
  obtain rfl : k = k' := congrArg Data.kind same
  by_cases right : k = kind
  · subst right
    have start := sameStart_iff.mp (Data.start_inj.mp same)
    rw [copyFrom_eq old xs room fits, copyFrom_eq old' ys room' fits', start]
    have size : (ys.extract 0 n).size = n := by
      rw [Array.size_extract]
      have enough : n ≤ ys.size := room'
      omega
    exact .ok ⟨_, _, rfl, rfl, overwritten_append fits fits' size⟩
  · simp only [Data.copyFrom, dif_neg right]
    exact .error _

theorem reshape_inStep (target : List Nat) (apart : ¬ inPlace) (fits : shape.volume ≤ old.size) (fits' : shape.volume ≤ old'.size)
    (alike : o.Alike ⟨kind, old⟩ ⟨kind, old'⟩ shape.volume inPlace s o') :
    InStep (Written kind old old' shape.volume) (reshape (.reshape target) ⟨[o], [s], ⟨kind, old⟩, shape, math⟩)
      (reshape (.reshape target) ⟨[o'], [s], ⟨kind, old'⟩, shape, math⟩) := by
  simp only [reshape, item_zero, ok_bind]
  refine (input_inStep apart rfl rfl alike).bind fun d d' related => ?_
  obtain ⟨room, room', same⟩ := related
  by_cases volumes : s.volume ≠ shape.volume
  · rw [if_pos volumes, if_pos volumes]
    exact .error _
  · rw [if_neg volumes, if_neg volumes]
    rw [not_not.mp volumes] at room room' same
    exact copyFrom_inStep fits fits' room room' same

theorem transpose_inStep {perm : List Nat} (apart : ¬ inPlace) (permutes : isPermutation perm s.length)
    (extents : s.permuted perm = .ok shape) (fits : shape.volume ≤ old.size) (fits' : shape.volume ≤ old'.size)
    (alike : o.Alike ⟨kind, old⟩ ⟨kind, old'⟩ shape.volume inPlace s o') :
    InStep (Written kind old old' shape.volume) (transpose (.transpose perm) ⟨[o], [s], ⟨kind, old⟩, shape, math⟩)
      (transpose (.transpose perm) ⟨[o'], [s], ⟨kind, old'⟩, shape, math⟩) := by
  obtain ⟨strides, steps, -⟩ := exists_strides permutes
  simp only [transpose, item_zero, ok_bind, steps]
  refine (input_inStep apart rfl rfl alike).bind fun d d' related => ?_
  obtain ⟨-, -, same⟩ := related
  split
  · exact .error _
  refine (Data.view_inStep same kind).bind fun xs ys viewed => ?_
  apply written_inStep
  apply fill_inStep fits fits'
  intro i inRange _ _ _ _
  exact viewed.2.2 _ (gatherOffset_lt permutes extents steps inRange)

theorem reduce_inStep {f : Reduction} {axis : Option Nat} (apart : ¬ inPlace)
    (result : (Op.reduce f axis).outputShape [s] = .ok shape)
    (fits : shape.volume ≤ old.size) (fits' : shape.volume ≤ old'.size)
    (alike : o.Alike ⟨kind, old⟩ ⟨kind, old'⟩ shape.volume inPlace s o') :
    InStep (Written kind old old' shape.volume) (reduce (.reduce f axis) ⟨[o], [s], ⟨kind, old⟩, shape, math⟩)
      (reduce (.reduce f axis) ⟨[o'], [s], ⟨kind, old'⟩, shape, math⟩) := by
  obtain ⟨outer, len, inner, extents, places, whole⟩ := reduceExtents_ok result
  have matching : ¬ shape.volume ≠ outer * inner := not_not.mpr places
  simp only [reduce, item_zero, ok_bind, extents, if_neg matching]
  refine (input_inStep apart rfl rfl alike).bind fun d d' related => ?_
  obtain ⟨-, -, same⟩ := related
  refine (Data.view_inStep same kind).bind fun xs ys viewed => ?_
  apply written_inStep
  apply fill_inStep fits fits'
  intro i inRange _ _ _ _
  have lanes : lane? xs len inner i = lane? ys len inner i := by
    apply mapM_congr
    intro j member
    apply viewed.2.2
    rw [whole]
    exact lane_lt (by rwa [← places]) (List.mem_range.mp member)
  rw [lanes]

section Products

variable {t : Shape} {p p' : Operand} {d : ProductDims}

/-- The matrices of a product are complete, and the same for both runs. -/
structure SameMatrices (kind : Kind) (d : ProductDims) (xs ys xs' ys' : Array (Elem kind)) : Prop where
  inRange : productInRange kind d xs.size ys.size = true
  inRange' : productInRange kind d xs'.size ys'.size = true
  left : d.batches * (d.rows * d.inner) ≤ xs.size
  left' : d.batches * (d.rows * d.inner) ≤ xs'.size
  right : d.batches * (d.inner * d.cols) ≤ ys.size
  right' : d.batches * (d.inner * d.cols) ≤ ys'.size
  sameLeft : SameStart (d.batches * (d.rows * d.inner)) xs xs'
  sameRight : SameStart (d.batches * (d.inner * d.cols)) ys ys'

/-- What comes after the operands of a product have been found. -/
theorem matrices_inStep (apart : ¬ inPlace) {args args' : KernelArgs} {n : Nat} {R : Data → Data → Prop}
    {next next' : Array (Elem kind) → Array (Elem kind) → Except Error Data}
    (lhs : item args.inputs 0 = .ok o) (rhs : item args.inputs 1 = .ok p)
    (lhs' : item args'.inputs 0 = .ok o') (rhs' : item args'.inputs 1 = .ok p')
    (left : o.Alike ⟨kind, old⟩ ⟨kind, old'⟩ n inPlace s o') (right : p.Alike ⟨kind, old⟩ ⟨kind, old'⟩ n inPlace t p')
    (leftVolume : s.volume = d.batches * d.rows * d.inner) (rightVolume : t.volume = d.batches * d.inner * d.cols)
    (rest : ∀ xs ys xs' ys', SameMatrices kind d xs ys xs' ys' → InStep R (next xs ys) (next' xs' ys')) :
    InStep R
      (requireInput .matmul args 0 >>= fun l => requireInput .matmul args 1 >>= fun r =>
        l.view kind >>= fun xs => r.view kind >>= fun ys => next xs ys)
      (requireInput .matmul args' 0 >>= fun l => requireInput .matmul args' 1 >>= fun r =>
        l.view kind >>= fun xs => r.view kind >>= fun ys => next' xs ys) := by
  refine (input_inStep apart lhs lhs' left).bind fun l l' relatedLeft => ?_
  refine (input_inStep apart rhs rhs' right).bind fun r r' relatedRight => ?_
  obtain ⟨roomLeft, roomLeft', sameLeft⟩ := relatedLeft
  obtain ⟨roomRight, roomRight', sameRight⟩ := relatedRight
  refine (Data.view_inStep sameLeft kind).bind fun xs xs' viewedLeft => ?_
  refine (Data.view_inStep sameRight kind).bind fun ys ys' viewedRight => rest xs ys xs' ys' ?_
  obtain ⟨sizeLeft, sizeLeft', startLeft⟩ := viewedLeft
  obtain ⟨sizeRight, sizeRight', startRight⟩ := viewedRight
  rw [← sizeLeft, leftVolume] at roomLeft
  rw [← sizeLeft', leftVolume] at roomLeft'
  rw [← sizeRight, rightVolume] at roomRight
  rw [← sizeRight', rightVolume] at roomRight'
  rw [leftVolume] at startLeft
  rw [rightVolume] at startRight
  have complete := productInRange_exact kind d
  rw [Nat.mul_assoc] at roomLeft roomLeft' roomRight roomRight' startLeft startRight
  rw [Nat.mul_assoc, Nat.mul_assoc] at complete
  exact ⟨productInRange_mono complete roomLeft roomRight, productInRange_mono complete roomLeft' roomRight',
    roomLeft, roomLeft', roomRight, roomRight', startLeft, startRight⟩

/-- Products of the same matrices are written in step. -/
theorem SameMatrices.multiplied_inStep [BlockRoutine] {xs ys xs' ys' : Array (Elem kind)} {n : Nat}
    (same : SameMatrices kind d xs ys xs' ys') (places : n = d.batches * d.rows * d.cols) (fits : n ≤ old.size)
    (fits' : n ≤ old'.size) :
    InStep (Overwritten n old old') (multiplied kind d xs ys old) (multiplied kind d xs' ys' old') := by
  subst places
  unfold multiplied
  split
  · rw [Nat.mul_assoc] at fits fits' ⊢
    rw [if_neg (Nat.not_lt.mpr fits), if_neg (Nat.not_lt.mpr fits')]
    have holds : d.Holds xs ys old := ⟨same.left, same.right, fits⟩
    have holds' : d.Holds xs' ys' old' := ⟨same.left', same.right', fits'⟩
    have confined := BlockRoutine.confined kind
    obtain ⟨size, rest⟩ := productsBy_keeps confined holds (Nat.le_refl _)
    obtain ⟨size', rest'⟩ := productsBy_keeps confined holds' (Nat.le_refl _)
    exact .ok ⟨size, size', rest, rest', productsBy_start confined holds holds' same.sameLeft same.sameRight (Nat.le_refl _)⟩
  · apply fill_inStep fits fits'
    intro i inRange _ _ _ _
    rw [Nat.mul_assoc] at inRange
    exact productAt_congr same.sameLeft same.sameRight inRange

theorem matmul_inStep [BlockRoutine] (apart : ¬ inPlace) (result : Op.productShape? s t = some shape)
    (fits : shape.volume ≤ old.size) (fits' : shape.volume ≤ old'.size)
    (left : o.Alike ⟨kind, old⟩ ⟨kind, old'⟩ shape.volume inPlace s o')
    (right : p.Alike ⟨kind, old⟩ ⟨kind, old'⟩ shape.volume inPlace t p') :
    InStep (Written kind old old' shape.volume) (matmul .matmul ⟨[o, p], [s, t], ⟨kind, old⟩, shape, math⟩)
      (matmul .matmul ⟨[o', p'], [s, t], ⟨kind, old'⟩, shape, math⟩) := by
  obtain ⟨d, dims, leftVolume, rightVolume, places⟩ := productDims_ok result
  simp only [matmul, item_zero, item_one, ok_bind, dims]
  refine matrices_inStep apart rfl rfl rfl rfl left right leftVolume rightVolume fun xs ys xs' ys' same => ?_
  rw [same.inRange, same.inRange']
  exact written_inStep (same.multiplied_inStep places fits fits')

end Products

end Kernel

end TensorGraph
