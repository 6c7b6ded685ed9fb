import TensorGraph.Proofs.Kernel.ShownFused
import TensorGraph.Proofs.Op.Typing

/-! Elementwise kernels have a result on all operands whose kinds agree and whose shapes the
operation accepts. -/
namespace TensorGraph

open Checked

namespace Kernel

/-- The kernel has a result on the tensors: as many elements as the shape has places. -/
def Completes (kernel : Kernel) (op : Op) (ts : List Tensor) (kind : Kind) (shape : Shape)
    (math : MathMode) : Prop :=
  ∃ elems : Array (Elem kind), kernel op (exactly ts kind shape math) = .ok ⟨kind, elems⟩ ∧
    elems.size = shape.volume

theorem view_of_kind {t : Tensor} {kind : Kind} (same : t.kind = kind) :
    ∃ xs : Array (Elem kind), t.data.view kind = .ok xs ∧ xs.size = t.shape.volume := by
  rcases t with ⟨shape, ⟨k, elems⟩, size_eq⟩
  obtain rfl : k = kind := same
  exact ⟨elems, by simp [Data.view], size_eq⟩

/-- The source has an element for each of `n` places. -/
def Source.Covers {α : Type} (s : Source α) (n : Nat) : Prop :=
  ∀ i x, i < n → (s.get i x).isSome

theorem source_total {t : Tensor} {kind : Kind} {shape : Shape} (same : t.kind = kind)
    (fits : t.shape = shape ∨ t.shape = []) :
    ∃ s, Source.of kind (.buffer t.data) t.shape shape.volume = .ok s ∧
      s.Covers shape.volume := by
  obtain ⟨xs, viewed, size⟩ := view_of_kind same
  have notLong : ¬ t.shape.volume > xs.size := by omega
  simp only [Source.of, viewed, ok_bind, if_neg notLong]
  by_cases full : t.shape.volume = shape.volume
  · refine ⟨.each xs, by rw [if_pos full], ?_⟩
    intro i x bound
    have inXs : i < xs.size := by omega
    simp [Source.get, inXs]
  · have single : t.shape.volume = 1 := by
      rcases fits with same | none
      · exact absurd (congrArg Shape.volume same) full
      · simp [none, Shape.volume]
    have inXs : 0 < xs.size := by omega
    obtain ⟨first, atFirst⟩ : ∃ x, xs[0]? = some x := ⟨_, Array.getElem?_eq_getElem inXs⟩
    refine ⟨.same first, by rw [if_neg full, if_pos single, atFirst], ?_⟩
    intro i x _
    rfl

@[simp] theorem item_zero {α : Type} (x : α) (xs : List α) : item (x :: xs) 0 = .ok x := rfl

@[simp] theorem item_one {α : Type} (x y : α) (xs : List α) : item (x :: y :: xs) 1 = .ok y := rfl

theorem unary_total (f : Unary) {t : Tensor} {kind : Kind} (same : t.kind = kind)
    (math : MathMode) : Completes unary (.unary f) [t] kind t.shape math := by
  obtain ⟨s, resolved, covers⟩ := source_total same (.inl rfl)
  have filled : ∃ filled, fill (.replicate t.shape.volume Scalar.zero) t.shape.volume
      (fun i old => (s.get i old).bind fun x => some (math.unary f x)) = .ok filled :=
    fill_isOk (by simp) fun i x bound => by
      obtain ⟨y, got⟩ := Option.isSome_iff_exists.mp (covers i x bound)
      simp [got]
  obtain ⟨filled, ran⟩ := filled
  have size : filled.size = t.shape.volume := by rw [size_fill ran, Array.size_replicate]
  refine ⟨filled, ?_, size⟩
  simp only [unary, List.map_cons, List.map_nil, item_zero, ok_bind]
  rw [if_neg (by simp [Data.size])]
  simp only [resolved, ok_bind]
  exact congrArg (· >>= _) ran

theorem binary_total (f : Binary) {t u : Tensor} {kind : Kind} {shape : Shape}
    (left : t.kind = kind) (right : u.kind = kind) (leftFits : t.shape = shape ∨ t.shape = [])
    (rightFits : u.shape = shape ∨ u.shape = []) (math : MathMode) :
    Completes binary (.binary f) [t, u] kind shape math := by
  obtain ⟨lhs, leftResolved, leftCovers⟩ := source_total left leftFits
  obtain ⟨rhs, rightResolved, rightCovers⟩ := source_total right rightFits
  have filled : ∃ filled, fill (.replicate shape.volume Scalar.zero) shape.volume
      (fun i old => (lhs.get i old).bind fun x => (rhs.get i old).bind fun y =>
        some (math.binary f x y)) = .ok filled :=
    fill_isOk (by simp) fun i x bound => by
      obtain ⟨y, gotLeft⟩ := Option.isSome_iff_exists.mp (leftCovers i x bound)
      obtain ⟨z, gotRight⟩ := Option.isSome_iff_exists.mp (rightCovers i x bound)
      simp [gotLeft, gotRight]
  obtain ⟨filled, ran⟩ := filled
  have size : filled.size = shape.volume := by rw [size_fill ran, Array.size_replicate]
  refine ⟨filled, ?_, size⟩
  simp only [binary]
  rw [if_neg (by simp [Data.size])]
  simp only [List.map_cons, List.map_nil, item_zero, item_one, ok_bind, leftResolved, rightResolved]
  exact congrArg (· >>= _) ran

theorem cast_total (target : Kind) (t : Tensor) (math : MathMode) :
    Completes cast (.cast target) [t] target t.shape math := by
  have filled : ∃ filled, fill (.replicate t.shape.volume Scalar.zero) t.shape.volume
      (fun i _ => t.data.elems[i]?.map (Elem.convert target)) = .ok filled :=
    fill_isOk (by simp) fun i x bound => by
      have inElems : i < t.data.elems.size := by
        have size := t.size_eq
        simp only [Data.size] at size
        omega
      simp [inElems]
  obtain ⟨filled, ran⟩ := filled
  have size : filled.size = t.shape.volume := by rw [size_fill ran, Array.size_replicate]
  refine ⟨filled, ?_, size⟩
  have long : ¬ t.data.size < t.shape.volume := by rw [t.size_eq]; omega
  simp only [cast, requireInput, List.map_cons, List.map_nil, item_zero, ok_bind]
  rw [if_neg long]
  exact congrArg (· >>= _) ran

end Kernel

namespace Expr

/-- Step `i` of an expression refers to inputs and earlier steps only. -/
def InRange (inputs i : Nat) : Step → Prop
  | .load k => k < inputs
  | .unary _ a => a < i
  | .binary _ a b => a < i ∧ b < i

theorem checkStep_ok {inputs i : Nat} {kind : Kind} {step : Step}
    (checked : checkStep inputs kind i step = .ok ()) : InRange inputs i step := by
  cases step with
  | load k =>
    by_cases inRange : k < inputs
    · exact inRange
    · simp [checkStep, inRange] at checked
  | unary f a =>
    obtain ⟨⟨⟩, -, decided⟩ := bind_eq_ok.mp checked
    by_cases inRange : a < i
    · exact inRange
    · simp [inRange] at decided
  | binary f a b =>
    by_cases inRange : a < i ∧ b < i
    · exact inRange
    · simp [checkStep, inRange] at checked

theorem checkFrom_cons {inputs i : Nat} {kind : Kind} {step : Step} {steps : List Step}
    (checked : checkFrom inputs kind i (step :: steps) = .ok ()) :
    InRange inputs i step ∧ checkFrom inputs kind (i + 1) steps = .ok () := by
  obtain ⟨⟨⟩, head, tail⟩ := bind_eq_ok.mp checked
  exact ⟨checkStep_ok head, tail⟩

theorem check_ok {e : Expr} {kind : Kind} (checked : e.check kind = .ok ()) :
    e.steps ≠ [] ∧ checkFrom e.inputs kind 0 e.steps = .ok () := by
  unfold check at checked
  split at checked
  · cases checked
  · rename_i some
    exact ⟨fun none => some (by simp [none]), checked⟩

end Expr

namespace Kernel

section Blocks

variable {α : Type} [Scalar α] (math : MathMode) {srcs : List (Source α)} {n : Nat}

theorem stepRow_total (covers : ∀ s ∈ srcs, s.Covers n) {base : Nat} {block : List α}
    (part : base + block.length ≤ n) {rows : List (List α)}
    (even : ∀ row ∈ rows, row.length = block.length) {step : Step}
    (inRange : Expr.InRange srcs.length rows.length step) :
    ∃ row, stepRow math srcs base block rows step = some row ∧ row.length = block.length := by
  cases step with
  | load k =>
    obtain ⟨s, atK⟩ : ∃ s, srcs[k]? = some s := ⟨_, List.getElem?_eq_getElem inRange⟩
    have mapped : (mapFrom s.get base block).isSome :=
      mapFrom_isSome fun i inBlock => covers s (List.mem_of_getElem? atK) _ _ (by omega)
    obtain ⟨row, mapped⟩ := Option.isSome_iff_exists.mp mapped
    exact ⟨row, Option.bind_eq_some_iff.mpr ⟨s, atK, mapped⟩, (mapFrom_eq_some.mp mapped).1⟩
  | unary f a =>
    obtain ⟨x, atA⟩ : ∃ x, rows[a]? = some x := ⟨_, List.getElem?_eq_getElem inRange⟩
    refine ⟨x.map (math.unary f), Option.bind_eq_some_iff.mpr ⟨x, atA, rfl⟩, ?_⟩
    rw [List.length_map]
    exact even x (List.mem_of_getElem? atA)
  | binary f a b =>
    obtain ⟨x, atA⟩ : ∃ x, rows[a]? = some x := ⟨_, List.getElem?_eq_getElem inRange.1⟩
    obtain ⟨y, atB⟩ : ∃ y, rows[b]? = some y := ⟨_, List.getElem?_eq_getElem inRange.2⟩
    refine ⟨List.zipWith (math.binary f) x y, ?_, ?_⟩
    · refine Option.bind_eq_some_iff.mpr ⟨x, atA, ?_⟩
      exact Option.bind_eq_some_iff.mpr ⟨y, atB, rfl⟩
    · rw [List.length_zipWith, even x (List.mem_of_getElem? atA), even y (List.mem_of_getElem? atB)]
      exact Nat.min_self _

theorem stepRows_total (covers : ∀ s ∈ srcs, s.Covers n) {base : Nat} {block : List α}
    (part : base + block.length ≤ n) {kind : Kind} {steps : List Step} {rows : List (List α)}
    (even : ∀ row ∈ rows, row.length = block.length)
    (checked : Expr.checkFrom srcs.length kind rows.length steps = .ok ()) :
    ∃ rows', stepRows math srcs base block rows steps = some rows' ∧
      ∀ row ∈ rows', row.length = block.length := by
  induction steps generalizing rows with
  | nil => exact ⟨rows, rfl, even⟩
  | cons step steps ih =>
    obtain ⟨inRange, rest⟩ := Expr.checkFrom_cons checked
    obtain ⟨row, atStep, length⟩ := stepRow_total math covers part even inRange
    have evenMore : ∀ r ∈ rows ++ [row], r.length = block.length := by
      intro r member
      rcases List.mem_append.mp member with old | new
      · exact even r old
      · rw [List.mem_singleton.mp new]
        exact length
    obtain ⟨rows', ran, evenAll⟩ := ih evenMore (by simpa using rest)
    exact ⟨rows', Option.bind_eq_some_iff.mpr ⟨row, atStep, ran⟩, evenAll⟩

theorem runBlock_total (covers : ∀ s ∈ srcs, s.Covers n) {base : Nat} {block : List α}
    (part : base + block.length ≤ n) {kind : Kind} {steps : List Step}
    (checked : Expr.checkFrom srcs.length kind 0 steps = .ok ()) :
    ∃ row, runBlock math steps srcs base block = some row ∧ row.length = block.length := by
  obtain ⟨rows, ran, even⟩ : ∃ rows, stepRows math srcs base block [] steps = some rows ∧
      ∀ row ∈ rows, row.length = block.length :=
    stepRows_total math covers part (by simp) checked
  refine ⟨rows.getLast?.getD block, Option.bind_eq_some_iff.mpr ⟨rows, ran, rfl⟩, ?_⟩
  cases last : rows.getLast? with
  | none => rfl
  | some row => exact even row (List.mem_of_getLast? last)

theorem runBlocks_total (covers : ∀ s ∈ srcs, s.Covers n) {kind : Kind} {steps : List Step}
    (checked : Expr.checkFrom srcs.length kind 0 steps = .ok ()) {size : Nat} (positive : 0 < size)
    (old : List α) (base : Nat) (part : 0 < old.length → base + old.length ≤ n) :
    ∃ new, runBlocks math steps srcs size base old = some new ∧ new.length = old.length := by
  rw [runBlocks]
  by_cases more : 0 < old.length
  · have whole := part more
    have headPart : base + (old.take size).length ≤ n := by
      rw [List.length_take]
      omega
    have tailPart : 0 < (old.drop size).length → base + size + (old.drop size).length ≤ n := by
      rw [List.length_drop]
      omega
    obtain ⟨head, ranHead, headLength⟩ := runBlock_total math covers headPart checked
    obtain ⟨tail, ranTail, tailLength⟩ :=
      runBlocks_total covers checked positive (old.drop size) (base + size) tailPart
    rw [dif_pos ⟨positive, more⟩]
    refine ⟨head ++ tail, ?_, ?_⟩
    · refine Option.bind_eq_some_iff.mpr ⟨head, ranHead, ?_⟩
      exact Option.bind_eq_some_iff.mpr ⟨tail, ranTail, rfl⟩
    · rw [List.length_append, headLength, tailLength, List.length_take, List.length_drop]
      omega
  · rw [dif_neg (by omega)]
    exact ⟨[], rfl, by simp only [List.length_nil]; omega⟩
termination_by old.length
decreasing_by simp only [List.length_drop]; omega

end Blocks

theorem sources_total {kind : Kind} {shape : Shape} {ts : List Tensor}
    (same : ∀ t ∈ ts, t.kind = kind) (fits : ∀ t ∈ ts, t.shape = shape ∨ t.shape = []) :
    ∃ srcs, sources kind shape.volume (ts.map fun t => .buffer t.data) (ts.map Tensor.shape) =
      .ok srcs ∧ srcs.length = ts.length ∧ ∀ s ∈ srcs, s.Covers shape.volume := by
  induction ts with
  | nil => exact ⟨[], rfl, rfl, by simp⟩
  | cons t ts ih =>
    obtain ⟨s, atHead, covers⟩ := source_total (same t (by simp)) (fits t (by simp))
    obtain ⟨srcs, atRest, length, coversRest⟩ := ih
      (fun u member => same u (List.mem_cons_of_mem _ member))
      (fun u member => fits u (List.mem_cons_of_mem _ member))
    refine ⟨s :: srcs, ?_, by simp [length], ?_⟩
    · simp only [sources, List.map_cons, atHead, atRest, ok_bind]
      rfl
    · intro r member
      rcases List.mem_cons.mp member with rfl | inRest
      · exact covers
      · exact coversRest r inRest

theorem fused_total {e : Expr} {kind : Kind} {shape : Shape} {ts : List Tensor}
    (checked : e.check kind = .ok ()) (count : ts.length = e.inputs)
    (same : ∀ t ∈ ts, t.kind = kind) (fits : ∀ t ∈ ts, t.shape = shape ∨ t.shape = [])
    (math : MathMode) : Completes fused (.fused e) ts kind shape math := by
  obtain ⟨srcs, resolved, length, covers⟩ := sources_total same fits
  have steps := (Expr.check_ok checked).2
  rw [← count, ← length] at steps
  have positive : 0 < blockSize := by decide
  obtain ⟨xs, ran, size⟩ := runBlocks_total math covers steps positive
    ((Array.replicate shape.volume (Scalar.zero : Elem kind)).extract 0 shape.volume).toList 0
    (by simp)
  have counted : ¬ (ts.map fun t => Operand.buffer t.data).length ≠ e.inputs := by
    simp [count]
  refine ⟨xs.toArray, ?_, by simp [size]⟩
  simp only [fused, if_neg counted]
  rw [if_neg (by simp [Data.size])]
  simp only [resolved, ok_bind, ran]
  simp [Data.size]

end Kernel

end TensorGraph
