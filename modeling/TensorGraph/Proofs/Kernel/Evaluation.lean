import TensorGraph.Kernel.BlockSums
import TensorGraph.Kernel.Registry
import TensorGraph.Proofs.Kernel.ShownFused
import TensorGraph.Proofs.Kernel.TotalReads
import TensorGraph.Proofs.Op.Sizes

/-! The value of one operation, and the kernels that compute it. On operands of the types that
inference accepted, an operation has a value of the inferred type unless the extents do not agree,
and its kernel leaves that value in a buffer of any size that has room for it. -/
namespace TensorGraph

open Checked Kernel

namespace Op

theorem lookup_eq_ok {ks : Kernels} {op : Op} {kernel : Kernel} :
    ks.lookup op = .ok kernel ↔ ks.get? op.family = some kernel := by
  unfold Kernels.lookup
  split
  · rename_i found
    rw [found, Except.ok.injEq, Option.some.injEq]
  · rename_i none
    rw [none]
    split <;> simp

/-- A fused expression has a step that gives its result. -/
def Formed (op : Op) : Prop := ∀ e, op = .fused e → e.steps ≠ []

theorem formed_of_infer {op : Op} {inputs : List Ty} {ty : Ty} (ran : op.infer inputs = .ok ty) :
    op.Formed := by
  obtain ⟨first, rest, -, -, -, accepted, -, -, -⟩ := infer_eq_ok.mp ran
  rintro e rfl
  exact (Expr.check_ok accepted).1

/-- An elementwise operation that runs over an operand of the rank of its result finds the shape
of its result there. -/
theorem shape_of_overwritten {op : Op} (fusable : op.isFusable) {shapes : List Shape}
    {s shape : Shape} (result : op.outputShape shapes = .ok shape) (member : s ∈ shapes)
    (rank : List.length s = List.length shape) : s = shape := by
  have covers : s = shape ∨ s = [] := by
    simp only [outputShape] at result
    split at result
    · cases result
    rename_i count
    cases shapes with
    | nil => cases member
    | cons first rest =>
      cases op with
      | unary f =>
        obtain rfl : rest = [] := by simpa [arity] using count
        cases result
        exact .inl (List.mem_singleton.mp member)
      | binary f => exact Shape.broadcastAll_ok result s member
      | fused e => exact Shape.broadcastAll_ok result s member
      | _ => exact absurd fusable Bool.false_ne_true
  rcases covers with same | none
  · exact same
  · rw [none] at rank
    rw [none, List.length_eq_zero_iff.mp rank.symm]

end Op

section

variable [BlockRoutine]

/-- The value of an operation on tensors. A transfer gives its operand. -/
def Op.eval (op : Op) (math : MathMode) (ts : List Tensor) : Except Error Tensor :=
  if op.isTransfer then item ts 0 else Kernels.host.run op ts math

namespace Op

theorem eval_transfer {op : Op} (moves : op.isTransfer) (math : MathMode) (ts : List Tensor) :
    op.eval math ts = item ts 0 := if_pos moves

theorem eval_computed {op : Op} (computes : ¬ op.isTransfer) (math : MathMode)
    (ts : List Tensor) : op.eval math ts = Kernels.host.run op ts math := if_neg computes

theorem exists_kernel {op : Op} (computes : ¬ op.isTransfer) :
    ∃ kernel, Kernels.host.get? op.family = some kernel := by
  cases op with
  | toDevice n => exact absurd rfl computes
  | toHost => exact absurd rfl computes
  | _ => exact ⟨_, rfl⟩

/-- A reference kernel counts its sizes and then computes. -/
theorem exists_reference {family : Family} {kernel : Kernel} (found : Kernels.host.get? family = some kernel) :
    ∃ plain, Kernels.reference? family = some plain ∧ kernel = counted plain := by
  obtain ⟨plain, listed, rfl⟩ := Option.map_eq_some_iff.mp found
  exact ⟨plain, listed, rfl⟩

omit [BlockRoutine] in
/-- Where an operation has a result shape, nothing overflows. -/
theorem counted_eq {kernel : Kernel} {op : Op} {ts : List Tensor} {args : KernelArgs}
    (result : op.resultShape (ts.map Tensor.shape) = .ok args.outShape) (shapes : args.shapes = ts.map Tensor.shape) :
    counted kernel op args = kernel op args := by
  obtain ⟨-, own, fits⟩ := resultShape_eq_ok.mp result
  have operands : args.shapes.all Shape.counts := by
    rw [shapes, List.all_map]
    exact List.all_eq_true.mpr fun t _ => Shape.counts_of_fits t.fits
  rw [counted, operands, shapes, own, Shape.counts_of_fits fits]
  rfl

theorem run_eq {op : Op} {kernel : Kernel} {first : Tensor} {rest : List Tensor} {math : MathMode}
    (found : Kernels.host.get? op.family = some kernel) :
    Kernels.host.run op (first :: rest) math =
      (op.resultShape ((first :: rest).map Tensor.shape) >>= fun shape =>
        kernel op (exactly (first :: rest) (op.resultKind first.kind) shape math) >>= fun data =>
          Tensor.make shape data) := by
  simp only [Kernels.run, lookup_eq_ok.mpr found, ok_bind]
  cases op <;> rfl

/-- An operation has a value of the given shape where its kernel completes. -/
theorem eval_of_completes {op : Op} (computes : ¬ op.isTransfer) {kernel : Kernel} {first : Tensor}
    {rest : List Tensor} {kind : Kind} {shape : Shape} {math : MathMode}
    (listed : Kernels.reference? op.family = some kernel) (kindOf : op.resultKind first.kind = kind)
    (result : op.resultShape ((first :: rest).map Tensor.shape) = .ok shape)
    (completes : Completes kernel op (first :: rest) kind shape math) :
    ∃ t, op.eval math (first :: rest) = .ok t ∧ t.shape = shape ∧ t.kind = kind := by
  obtain ⟨elems, computed, size⟩ := completes
  have size : (⟨kind, elems⟩ : Data).size = shape.volume := size
  have fits := (resultShape_eq_ok.mp result).2.2
  have found : Kernels.host.get? op.family = some (counted kernel) := Option.map_eq_some_iff.mpr ⟨kernel, listed, rfl⟩
  refine ⟨⟨shape, ⟨kind, elems⟩, size, fits⟩, ?_, rfl, rfl⟩
  rw [eval_computed computes, run_eq found, result, ok_bind, counted_eq result rfl, kindOf, computed, ok_bind]
  exact Tensor.make_of_size size fits

/-- What an operation of known types on tensors of those types computes, its kernel completes. -/
theorem reference_completes {op : Op} (computes : ¬ op.isTransfer) {inputs : List Ty} {ty : Ty}
    {first : Tensor} {rest : List Tensor} {shape : Shape} (ran : op.infer inputs = .ok ty)
    (typed : List.Forall₂ Tensor.HasType (first :: rest) inputs)
    (result : op.outputShape ((first :: rest).map Tensor.shape) = .ok shape) (math : MathMode) :
    ∃ kernel, Kernels.reference? op.family = some kernel ∧
      Completes kernel op (first :: rest) (op.resultKind first.kind) shape math := by
  obtain ⟨firstTy, restTys, rfl, count, sameKind, accepted, rank, -, -⟩ := infer_eq_ok.mp ran
  have kindOf : first.kind = firstTy.kind := by
    cases typed with
    | cons head tail => exact head.1
  have same : ∀ t ∈ first :: rest, t.kind = first.kind := by
    intro t member
    obtain ⟨i, inTs, rfl⟩ := List.mem_iff_getElem.mp member
    have inTys : i < (firstTy :: restTys).length := by rwa [← typed.length_eq]
    have here := (typed.get inTs inTys).1
    exact here.trans ((sameKind _ (List.get_mem _ _)).trans kindOf.symm)
  have counted : (first :: rest).length = op.arity := typed.length_eq.trans count
  have restLength : rest.length = restTys.length := by simpa using typed.length_eq
  have reduced : ¬ ((first :: rest).map Tensor.shape).length ≠ op.arity := by simpa using counted
  cases op with
  | unary f =>
    obtain rfl : rest = [] := by simpa [arity] using counted
    simp only [outputShape, if_neg reduced] at result
    cases result
    exact ⟨_, rfl, unary_total f rfl math⟩
  | binary f =>
    obtain ⟨second, rfl⟩ : ∃ second, rest = [second] := by
      simpa [arity, List.length_eq_one_iff] using counted
    simp only [outputShape, if_neg reduced] at result
    have fits := Shape.broadcastAll_ok result
    exact ⟨_, rfl, binary_total f rfl (same second (by simp)) (fits _ (by simp))
      (fits _ (by simp)) math⟩
  | cast k =>
    obtain rfl : rest = [] := by simpa [arity] using counted
    simp only [outputShape, if_neg reduced] at result
    cases result
    exact ⟨_, rfl, cast_total k first math⟩
  | fused e =>
    simp only [outputShape, if_neg reduced] at result
    have fits := Shape.broadcastAll_ok result
    have checked : e.check first.kind = .ok () := by
      rw [kindOf]
      exact accepted
    refine ⟨_, rfl, fused_total checked counted same (fun t member => fits t.shape ?_) math⟩
    exact List.mem_map_of_mem member
  | reduce f axis =>
    obtain rfl : rest = [] := by simpa [arity] using counted
    exact ⟨_, rfl, reduce_total f axis rfl result math⟩
  | matmul =>
    obtain ⟨second, rfl⟩ : ∃ second, rest = [second] := by
      simpa [arity, List.length_eq_one_iff] using counted
    have product := productShape_of_output result (item_zero _ _) (item_one _ _ _)
    exact ⟨_, rfl, matmul_total rfl (same second (by simp)) product math⟩
  | toDevice n => exact absurd rfl computes
  | toHost => exact absurd rfl computes
  | reshape target =>
    obtain rfl : rest = [] := by simpa [arity] using counted
    simp only [outputShape, if_neg reduced] at result
    simp only [List.map_cons] at result
    split at result
    · cases result
    split at result
    · rename_i volumes
      cases result
      exact ⟨_, rfl, reshape_total _ rfl volumes.symm math⟩
    · cases result
  | transpose perm =>
    obtain rfl : rest = [] := by simpa [arity] using counted
    have rankOf : first.shape.length = firstTy.rank := by
      cases typed with
      | cons head tail => exact head.2
    have permutes := (permutes_of_inferRank rank).1
    rw [← rankOf] at permutes
    exact ⟨_, rfl, transpose_total rfl permutes (permuted_of_outputShape result) math⟩

/-- An operation of known types on tensors of those types has a kernel that completes. -/
theorem completes_typed {op : Op} (computes : ¬ op.isTransfer) {inputs : List Ty} {ty : Ty}
    {first : Tensor} {rest : List Tensor} {shape : Shape} (ran : op.infer inputs = .ok ty)
    (typed : List.Forall₂ Tensor.HasType (first :: rest) inputs)
    (result : op.resultShape ((first :: rest).map Tensor.shape) = .ok shape) (math : MathMode) :
    ∃ kernel, Kernels.host.get? op.family = some kernel ∧
      Completes kernel op (first :: rest) (op.resultKind first.kind) shape math := by
  obtain ⟨plain, listed, elems, computed, size⟩ :=
    reference_completes computes ran typed (resultShape_eq_ok.mp result).1 math
  exact ⟨_, Option.map_eq_some_iff.mpr ⟨plain, listed, rfl⟩, elems, (counted_eq result rfl).trans computed, size⟩

/-- Static types are sound: on tensors of the types that inference accepted, an operation has a
value of the inferred type, or its extents give no result and it has none. -/
theorem eval_typed {op : Op} {inputs : List Ty} {ty : Ty} {ts : List Tensor}
    (ran : op.infer inputs = .ok ty) (typed : List.Forall₂ Tensor.HasType ts inputs)
    (math : MathMode) :
    (∃ t, op.resultShape (ts.map Tensor.shape) = .ok t.shape ∧ op.eval math ts = .ok t ∧
        t.HasType ty) ∨
      ∃ e, op.resultShape (ts.map Tensor.shape) = .error e ∧ op.eval math ts = .error e ∧
        e.OfExtents := by
  have ranks : List.Forall₂ (fun s (t : Ty) => List.length s = t.rank) (ts.map Tensor.shape) inputs := by
    rw [List.forall₂_map_left_iff]
    exact typed.imp fun t ty has => has.2
  obtain ⟨firstTy, restTys, rfl, count, sameKind, -, -, kindOf, -⟩ := infer_eq_ok.mp ran
  cases ts with
  | nil => cases typed
  | cons first rest =>
    have firstKind : first.kind = firstTy.kind := by
      cases typed with
      | cons head tail => exact head.1
    have resultKind : op.resultKind first.kind = ty.kind := by rw [firstKind, kindOf]
    by_cases moves : op.isTransfer
    · have counted : ¬ ((first :: rest).map Tensor.shape).length ≠ op.arity := by
        rw [List.length_map, typed.length_eq]
        exact not_not.mpr count
      have shapeOf : op.outputShape ((first :: rest).map Tensor.shape) = .ok first.shape := by
        cases op with
        | toDevice n => simp only [outputShape, if_neg counted]; rfl
        | toHost => simp only [outputShape, if_neg counted]; rfl
        | _ => exact absurd moves Bool.false_ne_true
      have evaluated : op.eval math (first :: rest) = .ok first := eval_transfer moves math _
      have same : op.resultKind first.kind = first.kind := by
        cases op <;> first
          | rfl
          | exact absurd moves Bool.false_ne_true
      have own : op.counts ((first :: rest).map Tensor.shape) := by
        cases op <;> first
          | rfl
          | exact absurd moves Bool.false_ne_true
      refine .inl ⟨first, resultShape_eq_ok.mpr ⟨shapeOf, own, first.fits⟩, evaluated, same.symm.trans resultKind, ?_⟩
      rcases outputShape_typed ran ranks with ⟨s, result, length⟩ | ⟨e, failed, -⟩
      · cases shapeOf.symm.trans result
        exact length
      · cases shapeOf.symm.trans failed
    · rw [eval_computed moves]
      cases result : op.resultShape ((first :: rest).map Tensor.shape) with
      | ok s =>
        obtain ⟨shaped, -, fits⟩ := resultShape_eq_ok.mp result
        have length : s.length = ty.rank := by
          rcases outputShape_typed ran ranks with ⟨s', shaped', length⟩ | ⟨e, failed, -⟩
          · cases shaped.symm.trans shaped'
            exact length
          · cases shaped.symm.trans failed
        obtain ⟨kernel, found, elems, computed, size⟩ :=
          completes_typed moves ran typed result math
        have size : (⟨op.resultKind first.kind, elems⟩ : Data).size = s.volume := size
        refine .inl ⟨⟨s, ⟨_, elems⟩, size, fits⟩, rfl, ?_, resultKind, length⟩
        rw [run_eq found, result, ok_bind, computed, ok_bind]
        exact Tensor.make_of_size size fits
      | error e =>
        obtain ⟨kernel, found⟩ := exists_kernel moves
        refine .inr ⟨e, rfl, ?_, resultShape_error result⟩
        rw [run_eq found, result, error_bind]

/-- Operands without a result shape have no result. -/
theorem run_of_resultShape_error {op : Op} (computes : ¬ op.isTransfer) {ts : List Tensor} {e : Error}
    (failed : op.resultShape (ts.map Tensor.shape) = .error e) (math : MathMode) :
    Kernels.host.run op ts math = .error e := by
  obtain ⟨kernel, found⟩ := exists_kernel computes
  cases ts with
  | nil => simp only [Kernels.run, lookup_eq_ok.mpr found, ok_bind, failed, error_bind]
  | cons first rest => rw [run_eq found, failed, error_bind]

/-- An operation with a type and a result shape, on tensors of the types it was inferred from. -/
structure Sound (op : Op) (ts : List Tensor) (ty : Ty) (s : Shape) : Prop where
  rank : s.length = ty.rank
  /-- Where the sizes can be counted and there may be memory for the result, it completes with a tensor of its type and
  shape. -/
  completes : op.counts (ts.map Tensor.shape) → s.fits → ∀ math, ∃ t, Kernels.host.run op ts math = .ok t ∧
    t.kind = ty.kind ∧ t.shape = s
  /-- Everywhere else it is a crash. -/
  crashes : ¬ (op.counts (ts.map Tensor.shape) ∧ s.fits) → ∀ math, Kernels.host.run op ts math = .error .crash
  /-- That takes a product of matrices, or an operand without elements. -/
  small : op ≠ .matmul → (∀ t ∈ ts, t.shape.volume ≠ 0) → op.counts (ts.map Tensor.shape) ∧ s.fits

/-- Static types are sound for execution, up to sizes: on tensors of the given types, an operation with a type and a
result shape completes with a tensor of that type and shape, and one without a result shape fails with the error that
says so. A crash is a permutation that points outside the shape, or no operand at all, which inference rules out, or a
new shape whose elements cannot be counted. -/
theorem typing_sound {op : Op} (computes : ¬ op.isTransfer) {tys : List Ty} {ts : List Tensor}
    (typed : List.Forall₂ Tensor.HasType ts tys) :
    (∀ ty s, op.infer tys = .ok ty → op.outputShape (ts.map Tensor.shape) = .ok s → op.Sound ts ty s) ∧
    ∀ e, op.outputShape (ts.map Tensor.shape) = .error e →
      (∀ math, Kernels.host.run op ts math = .error e) ∧ (e ≠ .crash → e.IsShape) ∧
        ((op.infer tys).isOk → e.IsShape ∨ ∃ target, op = .reshape target ∧ ¬ Shape.counts target) := by
  have ranks : List.Forall₂ (fun s (t : Ty) => List.length s = t.rank) (ts.map Tensor.shape) tys := by
    rw [List.forall₂_map_left_iff]
    exact typed.imp fun t ty has => has.2
  constructor
  · intro ty s inferred shaped
    refine ⟨?_, fun own fits math => ?_, fun beyond math => ?_, fun notProduct elements => ?_⟩
    · rcases outputShape_typed inferred ranks with ⟨s', shaped', length⟩ | ⟨e, failed, -⟩
      · cases shaped.symm.trans shaped'
        exact length
      · cases shaped.symm.trans failed
    · have result := resultShape_eq_ok.mpr ⟨shaped, own, fits⟩
      rw [← eval_computed computes math ts]
      rcases eval_typed inferred typed math with ⟨t, shaped', ran, has⟩ | ⟨e, failed, -⟩
      · cases result.symm.trans shaped'
        exact ⟨t, ran, has.1, rfl⟩
      · cases result.symm.trans failed
    · exact run_of_resultShape_error computes (resultShape_crash shaped beyond) math
    · exact sizes_of_elements inferred typed notProduct elements shaped
  · intro e failed
    refine ⟨run_of_resultShape_error computes (resultShape_of_error failed), fun told => ?_, fun isOk => ?_⟩
    · exact (outputShape_error failed).resolve_right told
    · obtain ⟨ty, inferred⟩ := exists_of_isOk isOk
      rcases outputShape_typed inferred ranks with ⟨s, shaped, -⟩ | ⟨e', failed', extents⟩
      · cases failed.symm.trans shaped
      · cases failed.symm.trans failed'
        refine extents.imp id fun ⟨_, target, first, isReshape, member, uncounted⟩ => ⟨target, isReshape, fun counted => ?_⟩
        obtain ⟨t, -, rfl⟩ := List.mem_map.mp member
        exact uncounted ⟨counted, Shape.counts_of_fits t.fits⟩

end Op

end

section

open scoped BlockRoutine

/-- A batch of two products over an axis without elements. -/
theorem Op.typing_sound_emptyProduct :
    let a : Tensor := ⟨[2, 1, 0], ⟨.i64, #[]⟩, rfl, rfl⟩
    let b : Tensor := ⟨[2, 0, 3], ⟨.i64, #[]⟩, rfl, rfl⟩
    Op.matmul.outputShape [a.shape, b.shape] = .ok [2, 1, 3] ∧
      ∀ math, ∃ t, Kernels.host.run .matmul [a, b] math = .ok t ∧ t.kind = .i64 ∧ t.shape = [2, 1, 3] := by
  intro a b
  have typed : List.Forall₂ Tensor.HasType [a, b] [{ kind := .i64, rank := 3 }, { kind := .i64, rank := 3 }] :=
    .cons ⟨rfl, rfl⟩ (.cons ⟨rfl, rfl⟩ .nil)
  have computes : ¬ Op.matmul.isTransfer := Bool.false_ne_true
  have shaped : Op.matmul.outputShape [a.shape, b.shape] = .ok [2, 1, 3] := rfl
  exact ⟨shaped, ((typing_sound computes typed).1 { kind := .i64, rank := 3 } _ rfl shaped).completes rfl rfl⟩

/-- The sums of empty rows, more of them than memory has room for. -/
theorem Op.rows_without_room :
    let t : Tensor := ⟨[2305843009213693952, 0], ⟨.f32, #[]⟩, rfl, rfl⟩
    let op : Op := .reduce .sum (some 1)
    t.HasType { kind := .f32, rank := 2 } ∧ op.infer [{ kind := .f32, rank := 2 }] = .ok { kind := .f32, rank := 1 } ∧
      op.outputShape [t.shape] = .ok [2305843009213693952] ∧
      ∀ math, Kernels.host.run op [t] math = .error .crash :=
  ⟨⟨rfl, rfl⟩, rfl, rfl, fun _ => rfl⟩

end

section

variable [BlockRoutine]

namespace Op

/-- A value has the shape that the extents of the operands gave. -/
theorem shape_of_eval {op : Op} {math : MathMode} {ts : List Tensor} {t : Tensor}
    (computes : ¬ op.isTransfer) (ran : op.eval math ts = .ok t) :
    op.resultShape (ts.map Tensor.shape) = .ok t.shape := by
  rw [eval_computed computes] at ran
  obtain ⟨kernel, found⟩ := exists_kernel computes
  cases ts with
  | nil =>
    simp only [Kernels.run, lookup_eq_ok.mpr found, ok_bind] at ran
    obtain ⟨shape, -, ran⟩ := bind_eq_ok.mp ran
    cases ran
  | cons first rest =>
    rw [run_eq found] at ran
    obtain ⟨shape, result, ran⟩ := bind_eq_ok.mp ran
    obtain ⟨data, -, made⟩ := bind_eq_ok.mp ran
    rw [result, (Tensor.make_eq_ok made).1]

theorem reference_extends {op : Op} {kernel : Kernel} {math : MathMode} {ts : List Tensor}
    {operands : List Operand} {kind : Kind} {shape : Shape} {d : Data} {old : Array (Elem kind)}
    (computes : ¬ op.isTransfer) (formed : op.Formed)
    (found : Kernels.reference? op.family = some kernel)
    (result : op.outputShape (ts.map Tensor.shape) = .ok shape)
    (ran : kernel op (exactly ts kind shape math) = .ok d) (fits : shape.volume ≤ old.size)
    (sharing : op.isFusable ∨ Apart operands)
    (shown : List.Forall₂ (Operand.Shows ⟨kind, old⟩ shape) operands ts) :
    ∃ elems : Array (Elem kind), d = ⟨kind, elems⟩ ∧
      kernel op (within operands ts ⟨kind, old⟩ shape math) =
        .ok ⟨kind, elems ++ old.extract shape.volume old.size⟩ := by
  cases op with
  | unary f =>
    cases found
    exact unary_extends f ran fits shown
  | binary f =>
    cases found
    exact binary_extends f ran fits shown
  | fused e =>
    cases found
    exact fused_extends e (formed e rfl) ran fits shown
  | cast k =>
    cases found
    exact cast_extends k ran fits (sharing.resolve_left Bool.false_ne_true) shown
  | reduce f axis =>
    cases found
    exact reduce_extends f axis ran fits
      (sharing.resolve_left Bool.false_ne_true) shown
  | matmul =>
    cases found
    exact matmul_extends ran result fits
      (sharing.resolve_left Bool.false_ne_true) shown
  | reshape target =>
    cases found
    exact reshape_extends target ran fits
      (sharing.resolve_left Bool.false_ne_true) shown
  | transpose perm =>
    cases found
    exact transpose_extends perm ran fits
      (sharing.resolve_left Bool.false_ne_true) shown
  | toDevice n => exact absurd rfl computes
  | toHost => exact absurd rfl computes

/-- The kernel of an operation computes its value in every buffer with room for it, from operands
in buffers of any size. Elementwise operations do so over one of their operands as well. -/
theorem kernel_shown {op : Op} {kernel : Kernel} {math : MathMode} {ts : List Tensor} {t : Tensor}
    {operands : List Operand} {out : Data} (computes : ¬ op.isTransfer) (formed : op.Formed)
    (found : Kernels.host.get? op.family = some kernel) (ran : op.eval math ts = .ok t)
    (kindOf : out.kind = t.kind) (fits : t.shape.volume ≤ out.size)
    (sharing : op.isFusable ∨ Apart operands)
    (shown : List.Forall₂ (Operand.Shows out t.shape) operands ts) :
    ∃ data, kernel op (within operands ts out t.shape math) = .ok data ∧ data.Begins t.data ∧
      data.size = out.size := by
  have result := shape_of_eval computes ran
  rw [eval_computed computes] at ran
  cases ts with
  | nil =>
    simp only [Kernels.run, lookup_eq_ok.mpr found, ok_bind] at ran
    obtain ⟨shape, -, ran⟩ := bind_eq_ok.mp ran
    cases ran
  | cons first rest =>
    rcases t with ⟨shape, x, size, _⟩
    simp only at result kindOf fits shown ⊢
    rw [run_eq found, result, ok_bind] at ran
    obtain ⟨data, computed, made⟩ := bind_eq_ok.mp ran
    obtain rfl : x = data := (Tensor.make_eq_ok made).2
    obtain ⟨plain, listed, rfl⟩ := exists_reference found
    rw [counted_eq result rfl] at computed
    obtain ⟨shaped, -, -⟩ := resultShape_eq_ok.mp result
    have exactShown : List.Forall₂
        (Operand.Shows ⟨op.resultKind first.kind, .replicate shape.volume Scalar.zero⟩ shape)
        ((first :: rest).map fun t => .buffer t.data) (first :: rest) := by
      rw [List.forall₂_map_left_iff]
      exact List.forall₂_same.mpr fun u _ => Data.Begins.refl u.data
    have exactApart : Apart ((first :: rest).map fun t => .buffer t.data) := by
      intro o member isOutput
      obtain ⟨u, -, rfl⟩ := List.mem_map.mp member
      cases isOutput
    -- The evaluation runs on buffers of just the right size, so it fixes the kind of the result.
    obtain ⟨elems, rfl, -⟩ := reference_extends computes formed listed shaped computed (by simp)
      (.inr exactApart) exactShown
    rcases out with ⟨kind, old⟩
    obtain rfl : kind = op.resultKind first.kind := kindOf
    obtain ⟨elems', same, computedHere⟩ := reference_extends computes formed listed shaped computed fits
      sharing shown
    cases same
    refine ⟨_, (counted_eq result rfl).trans computedHere, ⟨old.extract shape.volume old.size, rfl⟩, ?_⟩
    have length : elems.size = shape.volume := size
    have room : shape.volume ≤ old.size := fits
    simp only [Data.size, Array.size_append, length, Array.size_extract]
    omega

end Op

end

end TensorGraph
