import TensorGraph.Proofs.Kernel.Evaluation
import TensorGraph.Proofs.Kernel.InStepReads

/-! What a kernel may touch. It changes the first elements of its output only, as many as the result has, and what it
writes there depends on the first elements of its inputs alone, as many as their shapes have places. An elementwise
kernel gives the same result when it finds some of its inputs in the output. -/
namespace TensorGraph

open Checked Kernel

namespace Operand

/-- Whether the operand is the output buffer. -/
def isOutput : Operand → Bool
  | .buffer _ => false
  | .output => true

theorem isOutput_iff {o : Operand} : o.isOutput ↔ o = .output := by
  cases o <;> simp [isOutput]

end Operand

namespace Data

/-- The buffer is the old one but for its first `n` elements. -/
structure KeepsRest (d : Data) (n : Nat) (old : Data) : Prop where
  size : d.size = old.size
  rest : d.rest n = old.rest n

theorem start_start (d : Data) (n : Nat) : (d.start n).start n = d.start n := by
  simp [start]

theorem size_start {d : Data} {n : Nat} (room : n ≤ d.size) : (d.start n).size = n := by
  have enough : n ≤ d.elems.size := room
  simp [start, size, enough]

end Data

namespace KernelArgs

/-- What each of the inputs gives to read. -/
def contents (args : KernelArgs) : List Data :=
  List.zipWith (fun o s => o.content args.out args.outShape.volume s) args.inputs args.shapes

/-- The static types of the inputs. -/
def types (args : KernelArgs) : List Ty :=
  List.zipWith (fun (d : Data) s => { kind := d.kind, rank := List.length s }) args.contents args.shapes

/-- Arguments for an operation on inputs that it accepts, in buffers with room for values of the declared shapes. -/
structure Fit (args : KernelArgs) (op : Op) : Prop where
  rooms : List.Forall₂ Operand.Holds args.shapes args.inputs
  room : args.outShape.volume ≤ args.out.size
  typed : (op.infer args.types).isOk
  shaped : op.outputShape args.shapes = .ok args.outShape

/-- The arguments with the chosen inputs in another output. -/
def sharing (args : KernelArgs) (chosen : Nat → Bool) (out : Data) : KernelArgs where
  inputs := args.inputs.mapIdx fun i o => if chosen i then .output else o
  shapes := args.shapes
  out := out
  outShape := args.outShape
  math := args.math

end KernelArgs

namespace Kernel

variable {kind : Kind} {old old' : Array (Elem kind)} {s shape : Shape} {ss : List Shape} {os os' : List Operand}
  {math : MathMode} {out out' : Data} {n : Nat} {inPlace : Prop} {R : Shape → Operand → Operand → Prop}

theorem Matching.single (matching : Matching R ss os os') (one : ss.length = 1) :
    ∃ s o o', ss = [s] ∧ os = [o] ∧ os' = [o'] ∧ R s o o' := by
  cases matching with
  | nil => cases one
  | cons head tail =>
    cases tail with
    | nil => exact ⟨_, _, _, rfl, rfl, rfl, head⟩
    | cons next rest => simp at one

theorem Matching.pair (matching : Matching R ss os os') (two : ss.length = 2) :
    ∃ s t o p o' p', ss = [s, t] ∧ os = [o, p] ∧ os' = [o', p'] ∧ R s o o' ∧ R t p p' := by
  cases matching with
  | nil => cases two
  | cons head tail =>
    obtain ⟨t, p, p', rfl, rfl, rfl, next⟩ := tail.single (by simpa using two)
    exact ⟨_, _, _, _, _, _, rfl, rfl, rfl, head, next⟩

theorem Matching.shapes_length (matching : Matching R ss os os') : ss.length = os.length := by
  induction matching with
  | nil => rfl
  | cons head tail ih => rw [List.length_cons, List.length_cons, ih]

/-- A kernel that is run twice, on operands that give it the same to read, writes the same. -/
theorem reference_inStep [BlockRoutine] {op : Op} {kernel : Kernel}
    (found : Kernels.reference? op.family = some kernel) {tys : List Ty}
    {ty : Ty} (typed : op.infer tys = .ok ty) (ranks : List.Forall₂ (fun s (t : Ty) => List.length s = t.rank) ss tys)
    (shaped : op.outputShape ss = .ok shape) (fits : shape.volume ≤ old.size) (fits' : shape.volume ≤ old'.size)
    (matching : Matching (Operand.Alike ⟨kind, old⟩ ⟨kind, old'⟩ shape.volume op.isFusable) ss os os') :
    InStep (Written kind old old' shape.volume) (kernel op ⟨os, ss, ⟨kind, old⟩, shape, math⟩)
      (kernel op ⟨os', ss, ⟨kind, old'⟩, shape, math⟩) := by
  obtain ⟨first, rest, rfl, count, -, accepted, ranked, -, -⟩ := Op.infer_eq_ok.mp typed
  have counted : ss.length = op.arity := ranks.length_eq.trans count
  have reduced : ¬ ss.length ≠ op.arity := not_not.mpr counted
  cases op with
  | unary f =>
    obtain rfl : Kernel.unary = kernel := Option.some.inj found
    obtain ⟨s, o, o', rfl, rfl, rfl, alike⟩ := matching.single counted
    exact unary_inStep f fits fits' alike
  | binary f =>
    obtain rfl : Kernel.binary = kernel := Option.some.inj found
    obtain ⟨s, t, o, p, o', p', rfl, rfl, rfl, left, right⟩ := matching.pair counted
    exact binary_inStep f fits fits' left right
  | fused e =>
    obtain rfl : Kernel.fused = kernel := Option.some.inj found
    exact fused_inStep accepted (matching.shapes_length.symm.trans counted) fits fits' matching
  | cast k =>
    obtain rfl : Kernel.cast = kernel := Option.some.inj found
    obtain ⟨s, o, o', rfl, rfl, rfl, alike⟩ := matching.single counted
    simp only [Op.outputShape, if_neg reduced] at shaped
    cases shaped
    exact cast_inStep k Bool.false_ne_true fits fits' alike
  | reduce f axis =>
    obtain rfl : Kernel.reduce = kernel := Option.some.inj found
    obtain ⟨s, o, o', rfl, rfl, rfl, alike⟩ := matching.single counted
    exact reduce_inStep Bool.false_ne_true shaped fits fits' alike
  | matmul =>
    obtain rfl : Kernel.matmul = kernel := Option.some.inj found
    obtain ⟨s, t, o, p, o', p', rfl, rfl, rfl, left, right⟩ := matching.pair counted
    have product := productShape_of_output shaped (item_zero _ _) (item_one _ _ _)
    exact matmul_inStep Bool.false_ne_true product fits fits' left right
  | reshape target =>
    obtain rfl : Kernel.reshape = kernel := Option.some.inj found
    obtain ⟨s, o, o', rfl, rfl, rfl, alike⟩ := matching.single counted
    exact reshape_inStep target Bool.false_ne_true fits fits' alike
  | transpose perm =>
    obtain rfl : Kernel.transpose = kernel := Option.some.inj found
    obtain ⟨s, o, o', rfl, rfl, rfl, alike⟩ := matching.single counted
    cases ranks with
    | cons rankOf none =>
      have permutes := (Op.permutes_of_inferRank ranked).1
      rw [← rankOf] at permutes
      exact transpose_inStep Bool.false_ne_true permutes (Op.permuted_of_outputShape shaped) fits fits' alike
  | toDevice n => cases found
  | toHost => cases found

/-- What is written in step keeps the rest of both buffers. -/
theorem written_keeps {d d' : Data} (written : Written kind old old' n d d') :
    d.KeepsRest n ⟨kind, old⟩ ∧ d.start n = d'.start n := by
  obtain ⟨new, new', rfl, rfl, overwritten⟩ := written
  have rest : new.extract n new.size = old.extract n old.size := by
    apply Array.ext_getElem?
    intro i
    rw [getElem?_from, getElem?_from, overwritten.rest _ (Nat.le_add_right n i)]
  exact ⟨⟨overwritten.size, congrArg (Data.mk kind) rest⟩, Data.start_inj.mpr overwritten.start⟩

theorem ranks_of_rooms (out : Data) (n : Nat) (rooms : List.Forall₂ Operand.Holds ss os) :
    List.Forall₂ (fun s (t : Ty) => List.length s = t.rank) ss
      (List.zipWith (fun (d : Data) s => ({ kind := d.kind, rank := List.length s } : Ty))
        (List.zipWith (fun o s => o.content out n s) os ss) ss) := by
  induction rooms with
  | nil => exact .nil
  | cons head tail ih => exact .cons rfl ih

/-- Operands match when they give the same to read, and the same of them are the output. -/
theorem matching_of_contents (rooms : List.Forall₂ Operand.Holds ss os) (rooms' : List.Forall₂ Operand.Holds ss os')
    (places : os'.map Operand.isOutput = os.map Operand.isOutput)
    (contents : List.zipWith (fun o s => o.content out' n s) os' ss = List.zipWith (fun o s => o.content out n s) os ss) :
    Matching (Operand.Alike out out' n inPlace) ss os os' := by
  induction rooms generalizing os' with
  | nil =>
    cases rooms'
    exact .nil
  | @cons s o ss os head tail ih =>
    cases rooms' with
    | @cons _ o' _ os' head' tail' =>
      simp only [List.map_cons, List.zipWith_cons_cons, List.cons.injEq] at places contents
      have place : o = .output ↔ o' = .output := by
        rw [← Operand.isOutput_iff, ← Operand.isOutput_iff, places.1]
      exact .cons ⟨head, head', contents.1.symm, .inl place⟩ (ih tail' places.2 contents.2)

/-- Operands match those of which some were moved to an output that was loaded with them. -/
theorem matching_sharing (chosen : Nat → Bool) (allowed : inPlace) (rooms : List.Forall₂ Operand.Holds ss os)
    (loaded : ∀ i o s, chosen i → os[i]? = some o → ss[i]? = some s → s.volume = n ∧ o.content out n s = out'.start n)
    (already : .output ∈ os → out.start n = out'.start n) :
    Matching (Operand.Alike out out' n inPlace) ss os (os.mapIdx fun i o => if chosen i then .output else o) := by
  induction rooms generalizing chosen with
  | nil => exact .nil
  | @cons s o ss os head tail ih =>
    rw [List.mapIdx_cons]
    apply Matching.cons
    · by_cases moved : chosen 0
      · obtain ⟨volume, content⟩ := loaded 0 o s moved rfl rfl
        rw [if_pos moved]
        exact ⟨head, trivial, content, .inr ⟨allowed, volume⟩⟩
      · rw [if_neg moved]
        refine ⟨head, head, ?_, .inl Iff.rfl⟩
        cases o with
        | buffer d => rfl
        | output => exact already List.mem_cons_self
    · apply ih
      · intro i o' s' moved atO atS
        exact loaded (i + 1) o' s' moved (by simpa using atO) (by simpa using atS)
      · intro member
        exact already (List.mem_cons_of_mem _ member)

/-- An operand is like a buffer with what it gives to read. -/
theorem alike_content {o : Operand} (out' : Data) (holds : o.Holds s) (room : n ≤ out.size)
    (aliased : o = .output → inPlace ∧ s.volume = n) :
    (o.content out n s).size = s.volume ∧ o.Alike out out' n inPlace s (.buffer (o.content out n s)) := by
  cases o with
  | buffer d =>
    have size : (d.start s.volume).size = s.volume := Data.size_start holds
    exact ⟨size, holds, Nat.le_of_eq size.symm, (Data.start_start d s.volume).symm, .inl (by simp)⟩
  | output =>
    obtain ⟨allowed, rfl⟩ := aliased rfl
    have size : (out.start s.volume).size = s.volume := Data.size_start room
    exact ⟨size, trivial, Nat.le_of_eq size.symm, (Data.start_start out s.volume).symm, .inr ⟨allowed, rfl⟩⟩

/-- The tensors in the operands, as operands of their own. -/
theorem exists_tensors (out' : Data) (rooms : List.Forall₂ Operand.Holds ss os) (small : ∀ s ∈ ss, Shape.fits s)
    (room : n ≤ out.size)
    (aliased : ∀ s, (.output, s) ∈ os.zip ss → inPlace ∧ s.volume = n) :
    ∃ ts : List Tensor, ts.map Tensor.shape = ss ∧
      ts.map Tensor.data = List.zipWith (fun o s => o.content out n s) os ss ∧
      Matching (Operand.Alike out out' n inPlace) ss os (ts.map fun t => .buffer t.data) := by
  induction rooms with
  | nil => exact ⟨[], rfl, rfl, .nil⟩
  | @cons s o ss os head tail ih =>
    obtain ⟨ts, shapes, datas, matching⟩ := ih (fun t member => small t (List.mem_cons_of_mem _ member))
      fun t member => aliased t (List.mem_cons_of_mem _ member)
    have here : o = .output → inPlace ∧ s.volume = n := by
      rintro rfl
      exact aliased s List.mem_cons_self
    obtain ⟨size, alike⟩ := alike_content out' head room here
    refine ⟨⟨s, o.content out n s, size, small s List.mem_cons_self⟩ :: ts, ?_, ?_, .cons alike matching⟩
    · rw [List.map_cons, shapes]
    · rw [List.map_cons, datas, List.zipWith_cons_cons]

end Kernel

namespace KernelArgs

variable [BlockRoutine] {op : Op} {kernel : Kernel} {args : KernelArgs}

/-- A kernel that is run twice, on arguments that give it the same to read. -/
theorem Fit.inStep (fit : args.Fit op) (args' : KernelArgs)
    (found : Kernels.host.get? op.family = some kernel) (shapes : args'.shapes = args.shapes)
    (outShape : args'.outShape = args.outShape) (math : args'.math = args.math) (kindOf : args'.out.kind = args.out.kind)
    (room' : args.outShape.volume ≤ args'.out.size)
    (matching : Matching (Operand.Alike args.out args'.out args.outShape.volume op.isFusable) args.shapes args.inputs
      args'.inputs) :
    InStep (fun d d' => d.KeepsRest args.outShape.volume args.out ∧
      d.start args.outShape.volume = d'.start args.outShape.volume) (kernel op args) (kernel op args') := by
  obtain ⟨rooms, room, typed, shaped⟩ := fit
  obtain ⟨ty, typed⟩ := exists_of_isOk typed
  have ranks := ranks_of_rooms args.out args.outShape.volume rooms
  rcases args with ⟨os, ss, ⟨kind, old⟩, shape, mode⟩
  rcases args' with ⟨os', ss', ⟨kind', old'⟩, shape', mode'⟩
  simp only at shapes outShape math kindOf
  subst shapes outShape math kindOf
  obtain ⟨plain, listed, rfl⟩ := Op.exists_reference found
  unfold counted
  split
  · exact (reference_inStep listed typed ranks shaped room room' matching).mono fun d d' written =>
      written_keeps written
  · exact .error _

end KernelArgs

namespace Op

variable [BlockRoutine] {op : Op} {kernel : Kernel} {args : KernelArgs}

/-- A kernel has a result on arguments that fit it, with an output of the inferred kind, where all sizes can be
counted. The output may be an input only of an elementwise operation, for a value of as many elements as the result. -/
theorem kernel_completes (found : Kernels.host.get? op.family = some kernel) (fit : args.Fit op)
    (small : ∀ s ∈ args.shapes, s.fits) (result : op.resultShape args.shapes = .ok args.outShape) {ty : Ty}
    (typed : op.infer args.types = .ok ty) (kindOf : args.out.kind = ty.kind)
    (aliased : ∀ s, (.output, s) ∈ args.inputs.zip args.shapes → op.isFusable ∧ s.volume = args.outShape.volume) :
    ∃ d, kernel op args = .ok d := by
  have computes : ¬ op.isTransfer := by
    cases op with
    | toDevice n => cases found
    | toHost => cases found
    | _ => exact Bool.false_ne_true
  obtain ⟨ts, shapes, datas, matching⟩ :=
    exists_tensors (.zeros args.out.kind args.outShape.volume) fit.rooms small fit.room aliased
  have types : args.types = ts.map fun t => { kind := t.kind, rank := t.rank } := by
    rw [KernelArgs.types, KernelArgs.contents, ← datas, ← shapes, List.zipWith_map, List.zipWith_self]
    rfl
  have hasTypes : List.Forall₂ Tensor.HasType ts args.types := by
    rw [types, List.forall₂_map_right_iff]
    exact List.forall₂_same.mpr fun t _ => ⟨rfl, rfl⟩
  obtain ⟨firstTy, restTys, split, -, -, -, -, resultKind, -⟩ := infer_eq_ok.mp typed
  cases ts with
  | nil =>
    rw [types] at split
    cases split
  | cons first rest =>
    have same : op.resultKind first.kind = args.out.kind := by
      rw [types] at split
      rw [kindOf, resultKind, ← (List.cons.inj split).1]
    rw [← shapes] at result
    obtain ⟨reference, host, elems, ran, -⟩ := completes_typed computes typed hasTypes result args.math
    obtain rfl : reference = kernel := Option.some.inj (host.symm.trans found)
    have completed : ∃ d, reference op (exactly (first :: rest) (op.resultKind first.kind) args.outShape args.math) =
      .ok d := ⟨_, ran⟩
    rw [same] at completed
    obtain ⟨d', ran'⟩ := completed
    have room : args.outShape.volume ≤ (Data.zeros args.out.kind args.outShape.volume).size := by
      simp [Data.zeros, Data.size]
    have both := fit.inStep (exactly (first :: rest) args.out.kind args.outShape args.math) found shapes
      rfl rfl rfl room matching
    obtain ⟨d, completes, -⟩ := both.of_ok ran'
    exact ⟨d, completes⟩

/-- Kernels respect the buffers that they are given. On inputs of an accepted kind, in buffers with room for the
declared shapes,
- a kernel changes the first elements of the output only, as many as the result has;
- the result depends on the first elements of each input alone, as many as its shape has places, and on those of
  the output where that is an input;
- an elementwise kernel gives the same result when some of the inputs that have as many elements as the result are
  read from the output instead, which was loaded with what they hold;
- there is a result, if all sizes can be counted and there may be memory for the inputs and the result, and the output
  has the kind of the result and is an input of an elementwise kernel only. -/
theorem kernels_respect_buffers (found : Kernels.host.get? op.family = some kernel)
    (fit : args.Fit op) :
    let n := args.outShape.volume
    (∀ d, kernel op args = .ok d → d.KeepsRest n args.out) ∧
    (∀ args', args'.Fit op → args'.shapes = args.shapes → args'.math = args.math → args'.out.kind = args.out.kind →
      args'.inputs.map Operand.isOutput = args.inputs.map Operand.isOutput → args'.contents = args.contents →
      (Data.start · n) <$> kernel op args' = (Data.start · n) <$> kernel op args) ∧
    (op.isFusable → ∀ (chosen : Nat → Bool) (out : Data), out.kind = args.out.kind → n ≤ out.size →
      (∀ i o s, chosen i → args.inputs[i]? = some o → args.shapes[i]? = some s →
        s.volume = n ∧ o.content args.out n s = out.start n) →
      (.output ∈ args.inputs → args.out.start n = out.start n) →
      (Data.start · n) <$> kernel op (args.sharing chosen out) = (Data.start · n) <$> kernel op args) ∧
    ∀ ty, (∀ s ∈ args.shapes, s.fits) → op.resultShape args.shapes = .ok args.outShape →
      op.infer args.types = .ok ty → args.out.kind = ty.kind → (∀ s, (.output, s) ∈ args.inputs.zip args.shapes →
        op.isFusable ∧ s.volume = n) → ∃ d, kernel op args = .ok d := by
  intro n
  refine ⟨?_, ?_, ?_, ?_⟩
  · intro d ran
    have same : Matching (Operand.Alike args.out args.out n op.isFusable) args.shapes args.inputs args.inputs :=
      matching_of_contents fit.rooms fit.rooms rfl rfl
    have twice := fit.inStep args found rfl rfl rfl rfl fit.room same
    obtain ⟨d', ran', keeps, -⟩ := twice.of_ok ran
    obtain rfl : d = d' := Except.ok.inj (ran.symm.trans ran')
    exact keeps
  · intro args' fit' shapes math kindOf places contents
    have outShape : args'.outShape = args.outShape := by
      have shaped := fit'.shaped
      rw [shapes, fit.shaped] at shaped
      exact (Except.ok.inj shaped).symm
    have rooms' := fit'.rooms
    have room' := fit'.room
    rw [shapes] at rooms'
    rw [outShape] at room'
    rw [KernelArgs.contents, KernelArgs.contents, shapes, outShape] at contents
    have matching : Matching (Operand.Alike args.out args'.out n op.isFusable) args.shapes args.inputs args'.inputs :=
      matching_of_contents fit.rooms rooms' places contents
    have both := fit.inStep args' found shapes outShape math kindOf room' matching
    exact (both.map_eq fun d d' related => related.2).symm
  · intro fusable chosen out kindOf room' loaded already
    have matching := matching_sharing chosen fusable fit.rooms loaded already
    have both := fit.inStep (args.sharing chosen out) found rfl rfl rfl kindOf room' matching
    exact (both.map_eq fun d d' related => related.2).symm
  · intro ty small result typed kindOf aliased
    exact kernel_completes found fit small result typed kindOf aliased

end Op

section

open scoped BlockRoutine

/-- A product is computed in buffers with slack, and again over the first of its operands. -/
theorem Op.kernels_respect_buffers_productInPlace :
    let op : Op := .binary .mul
    let args : KernelArgs :=
      ⟨[.buffer ⟨.i32, #[1, 2, 3, 99]⟩, .buffer ⟨.i32, #[10, 20, 30, 40, 50]⟩], [[3], [3]], ⟨.i32, #[0, 0, 0, 7]⟩, [3], {}⟩
    let out : Data := ⟨.i32, #[1, 2, 3, 8]⟩
    let kernel := counted Kernel.binary
    args.Fit op ∧ ∃ d, kernel op args = .ok d ∧ d.KeepsRest 3 args.out ∧
      (Data.start · 3) <$> kernel op (args.sharing (· == 0) out) = .ok (d.start 3) := by
  intro op args out kernel
  have fit : args.Fit op := ⟨.cons (by decide) (.cons (by decide) .nil), by decide, rfl, rfl⟩
  have found : Kernels.host.get? op.family = some kernel := rfl
  obtain ⟨keeps, -, moved, completes⟩ := kernels_respect_buffers found fit
  obtain ⟨d, ran⟩ := completes { kind := .i32, rank := 1 } (by simp [args]; rfl) rfl rfl rfl (by simp [args])
  have same := moved rfl (· == 0) out rfl (by decide) ?_ (by simp [args])
  · rw [ran] at same
    exact ⟨fit, d, ran, keeps d ran, same⟩
  · intro i o s chosen atO atS
    obtain rfl : i = 0 := by simpa using chosen
    cases atO
    cases atS
    exact ⟨rfl, rfl⟩

end

end TensorGraph
