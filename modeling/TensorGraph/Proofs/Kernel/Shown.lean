import TensorGraph.Kernel.Elementwise
import TensorGraph.Proofs.Kernel.Fill
import TensorGraph.Proofs.Logic.Checked

/-! Elementwise kernels in buffers larger than their values. A buffer holds a tensor when it begins
with its elements; the kernels give the same elements there as in buffers of just the right size,
also when an operand is the output buffer itself. -/
namespace TensorGraph

open Checked

/-- The buffer starts with the elements of `x`, and what follows them is slack. -/
def Data.Begins (d x : Data) : Prop := ∃ slack, d = ⟨x.kind, x.elems ++ slack⟩

/-- The operand gives a kernel the elements of a tensor. The output buffer does so for a tensor of
the shape that is going to be written over it. -/
def Operand.Shows (out : Data) (shape : Shape) : Operand → Tensor → Prop
  | .buffer d, t => d.Begins t.data
  | .output, t => out.Begins t.data ∧ t.shape = shape

namespace Data

theorem Begins.kind_eq {d x : Data} (begins : d.Begins x) : d.kind = x.kind := by
  obtain ⟨slack, rfl⟩ := begins
  rfl

theorem Begins.refl (d : Data) : d.Begins d := ⟨#[], by simp⟩

theorem Begins.view {d x : Data} {kind : Kind} {xs : Array (Elem kind)} (begins : d.Begins x)
    (viewed : x.view kind = .ok xs) : ∃ slack, d.view kind = .ok (xs ++ slack) := by
  obtain ⟨slack, rfl⟩ := begins
  unfold Data.view at viewed ⊢
  split at viewed
  · rename_i same
    subst same
    cases viewed
    exact ⟨slack, by simp⟩
  · cases viewed

/-- Reading the start of a buffer gives back the value it holds. -/
theorem Begins.take {d x : Data} (begins : d.Begins x) : d.take x.size = .ok x := by
  obtain ⟨slack, rfl⟩ := begins
  have short : ¬ x.elems.size > x.elems.size + slack.size := by omega
  simp [Data.take, size, short]

end Data

namespace Kernel

theorem item_eq_ok {α : Type} {xs : List α} {i : Nat} {x : α} :
    item xs i = .ok x ↔ xs[i]? = some x := by
  unfold item
  split <;> simp_all

/-- The arguments with which an operation is evaluated on tensors. -/
@[reducible] def exactly (ts : List Tensor) (kind : Kind) (shape : Shape) (math : MathMode) : KernelArgs where
  inputs := ts.map fun t => .buffer t.data
  shapes := ts.map Tensor.shape
  out := ⟨kind, .replicate shape.volume Scalar.zero⟩
  outShape := shape
  math := math

/-- The arguments with which an operation runs on buffers that hold tensors. -/
@[reducible] def within (operands : List Operand) (ts : List Tensor) (out : Data) (shape : Shape)
    (math : MathMode) : KernelArgs where
  inputs := operands
  shapes := ts.map Tensor.shape
  out := out
  outShape := shape
  math := math

theorem shown_item {out : Data} {shape : Shape} {operands : List Operand} {ts : List Tensor}
    (shown : List.Forall₂ (Operand.Shows out shape) operands ts) {i : Nat} {o : Operand}
    (at_ : item (ts.map fun t => Operand.buffer t.data) i = .ok o) :
    ∃ t operand, ts[i]? = some t ∧ o = .buffer t.data ∧ item operands i = .ok operand ∧
      operand.Shows out shape t := by
  rw [item_eq_ok, List.getElem?_map, Option.map_eq_some_iff] at at_
  obtain ⟨t, atT, rfl⟩ := at_
  obtain ⟨inTs, rfl⟩ := List.getElem?_eq_some_iff.mp atT
  have inOperands : i < operands.length := by rw [shown.length_eq]; exact inTs
  exact ⟨ts[i], operands[i], atT, rfl, item_eq_ok.mpr (List.getElem?_eq_getElem inOperands),
    shown.get inOperands inTs⟩

/-- An elementwise kernel reads from a buffer that holds a tensor what it reads from the tensor. -/
theorem source_shown {kind : Kind} {old : Array (Elem kind)} {shape : Shape} {operand : Operand}
    {t : Tensor} {s : Source (Elem kind)} (fits : shape.volume ≤ old.size)
    (shown : operand.Shows ⟨kind, old⟩ shape t)
    (resolved : Source.of kind (.buffer t.data) t.shape shape.volume = .ok s) :
    ∃ s', Source.of kind operand t.shape shape.volume = .ok s' ∧
      ∀ i (inOld : i < old.size) x y, i < shape.volume →
        s.get i x = some y → s'.get i old[i] = some y := by
  obtain ⟨xs, viewed, rest⟩ := bind_eq_ok.mp resolved
  have sizes : xs.size = t.shape.volume := by
    rw [← t.size_eq]
    unfold Data.view at viewed
    split at viewed
    · rename_i same
      rcases t with ⟨tShape, ⟨tKind, elems⟩, size_eq⟩
      cases same
      cases viewed
      rfl
    · cases viewed
  have notLong : ¬ t.shape.volume > xs.size := by omega
  simp only [notLong, ↓reduceIte] at rest
  cases operand with
  | output =>
    obtain ⟨begins, sameShape⟩ := shown
    obtain ⟨slack, viewedOut⟩ := begins.view viewed
    have whole : old = xs ++ slack := by simpa [Data.view] using viewedOut
    rw [sameShape] at rest sizes
    simp only [↓reduceIte, Except.ok.injEq] at rest
    subst rest
    refine ⟨.current, rfl, ?_⟩
    intro i inOld _ y inShape got
    have inXs : i < xs.size := by omega
    simp only [Source.get, Array.getElem?_eq_getElem inXs, Option.some.injEq] at got
    simp only [Source.get, Option.some.injEq, ← got]
    subst whole
    exact Array.getElem_append_left inXs
  | buffer d =>
    obtain ⟨slack, viewedD⟩ := shown.view viewed
    have notLonger : ¬ t.shape.volume > (xs ++ slack).size := by
      rw [Array.size_append]
      omega
    simp only [Source.of, viewedD, ok_bind, notLonger, ↓reduceIte]
    split at rest
    · rename_i full
      cases rest
      refine ⟨.each (xs ++ slack), by simp [full], ?_⟩
      intro i _ _ y inShape got
      have inXs : i < xs.size := by omega
      simp only [Source.get] at got ⊢
      rw [Array.getElem?_append_left inXs]
      exact got
    · rename_i notFull
      split at rest
      · rename_i single
        have first : (xs ++ slack)[0]? = xs[0]? := Array.getElem?_append_left (by omega)
        split at rest
        · rename_i x atFirst
          cases rest
          refine ⟨.same x, by rw [if_neg notFull, if_pos single, first, atFirst], ?_⟩
          intro i _ _ y _ got
          exact got
        · cases rest
      · cases rest

/-- The result of `kernel` on tensors, found also in buffers that hold them: the output buffer
then begins with it and is otherwise left alone. -/
def Extends (kernel : Kernel) (op : Op) : Prop :=
  ∀ {operands : List Operand} {ts : List Tensor} {kind : Kind} {shape : Shape} {math : MathMode}
    {d : Data} {old : Array (Elem kind)},
    kernel op (exactly ts kind shape math) = .ok d → shape.volume ≤ old.size →
    List.Forall₂ (Operand.Shows ⟨kind, old⟩ shape) operands ts →
    ∃ elems : Array (Elem kind), d = ⟨kind, elems⟩ ∧
      kernel op (within operands ts ⟨kind, old⟩ shape math) =
        .ok ⟨kind, elems ++ old.extract shape.volume old.size⟩

/-- Filling the output of the evaluation and filling a larger output agree. -/
theorem fill_roomy {kind : Kind} {shape : Shape} {old filled : Array (Elem kind)}
    {f g : Nat → Elem kind → Option (Elem kind)} (fits : shape.volume ≤ old.size)
    (ran : fill (.replicate shape.volume Scalar.zero) shape.volume f = .ok filled)
    (agree : ∀ i (inOld : i < old.size) x y, i < shape.volume →
      f i x = some y → g i old[i] = some y) :
    fill old shape.volume g = .ok (filled ++ old.extract shape.volume old.size) := by
  refine fill_extends ran Array.size_replicate fits ?_
  intro i inExact inOld y atPlace
  have bound : i < shape.volume := by rwa [Array.size_replicate] at inExact
  exact agree i inOld _ y bound atPlace

theorem unary_extends (f : Unary) : Extends unary (.unary f) := by
  intro operands ts kind shape math d old ran fits shown
  simp only [unary, exactly, bind_eq_ok] at ran
  obtain ⟨o, atInput, s, atShape, ran⟩ := ran
  obtain ⟨t, operand, atT, rfl, atOperand, shows⟩ := shown_item shown atInput
  have shapeOf : item (ts.map Tensor.shape) 0 = .ok t.shape := by
    simp [item_eq_ok, atT]
  obtain rfl : t.shape = s := Except.ok.inj (shapeOf.symm.trans atShape)
  rw [if_neg (by simp [Data.size])] at ran
  obtain ⟨src, resolved, ran⟩ := bind_eq_ok.mp ran
  obtain ⟨elems, filled, ran⟩ := bind_eq_ok.mp ran
  cases ran
  obtain ⟨src', resolved', agree⟩ := source_shown fits shows resolved
  refine ⟨elems, rfl, ?_⟩
  have roomy : ¬ (⟨kind, old⟩ : Data).size < shape.volume := Nat.not_lt.mpr fits
  simp only [unary, within, atOperand, shapeOf, ok_bind, if_neg roomy, resolved']
  rw [fill_roomy fits filled]
  · rfl
  · intro i inOld x y bound atPlace
    obtain ⟨z, got, applied⟩ := Option.bind_eq_some_iff.mp atPlace
    exact Option.bind_eq_some_iff.mpr ⟨z, agree i inOld x z bound got, applied⟩

theorem binary_extends (f : Binary) : Extends binary (.binary f) := by
  intro operands ts kind shape math d old ran fits shown
  simp only [binary, exactly] at ran
  rw [if_neg (by simp [Data.size])] at ran
  simp only [bind_eq_ok] at ran
  obtain ⟨o, atLeft, s, atLeftShape, lhs, leftResolved, ran⟩ := ran
  obtain ⟨o', atRight, s', atRightShape, rhs, rightResolved, elems, filled, ran⟩ := ran
  cases ran
  obtain ⟨t, left, atT, rfl, atLeftOperand, leftShows⟩ := shown_item shown atLeft
  obtain ⟨u, right, atU, rfl, atRightOperand, rightShows⟩ := shown_item shown atRight
  have leftShape : item (ts.map Tensor.shape) 0 = .ok t.shape := by simp [item_eq_ok, atT]
  have rightShape : item (ts.map Tensor.shape) 1 = .ok u.shape := by simp [item_eq_ok, atU]
  obtain rfl : t.shape = s := Except.ok.inj (leftShape.symm.trans atLeftShape)
  obtain rfl : u.shape = s' := Except.ok.inj (rightShape.symm.trans atRightShape)
  obtain ⟨lhs', leftResolved', leftAgree⟩ := source_shown fits leftShows leftResolved
  obtain ⟨rhs', rightResolved', rightAgree⟩ := source_shown fits rightShows rightResolved
  refine ⟨elems, rfl, ?_⟩
  have roomy : ¬ (⟨kind, old⟩ : Data).size < shape.volume := Nat.not_lt.mpr fits
  simp only [binary, within, atLeftOperand, atRightOperand, leftShape, rightShape, ok_bind,
    if_neg roomy, leftResolved', rightResolved']
  rw [fill_roomy fits filled]
  · rfl
  · intro i inOld x y bound atPlace
    obtain ⟨z, gotLeft, atPlace⟩ := Option.bind_eq_some_iff.mp atPlace
    obtain ⟨w, gotRight, applied⟩ := Option.bind_eq_some_iff.mp atPlace
    refine Option.bind_eq_some_iff.mpr ⟨z, leftAgree i inOld x z bound gotLeft, ?_⟩
    exact Option.bind_eq_some_iff.mpr ⟨w, rightAgree i inOld x w bound gotRight, applied⟩

/-- The buffers of a kernel that cannot run in place. -/
def Apart (operands : List Operand) : Prop := ∀ o ∈ operands, o ≠ .output

theorem shown_input {op : Op} {kind : Kind} {old : Array (Elem kind)} {shape : Shape}
    {math : MathMode} {operands : List Operand} {ts : List Tensor} {i : Nat} {x : Data}
    (apart : Apart operands)
    (shown : List.Forall₂ (Operand.Shows ⟨kind, old⟩ shape) operands ts)
    (got : requireInput op (exactly ts kind shape math) i = .ok x) :
    ∃ t d, ts[i]? = some t ∧ x = t.data ∧ d.Begins t.data ∧
      item (ts.map Tensor.shape) i = .ok t.shape ∧
      requireInput op (within operands ts ⟨kind, old⟩ shape math) i = .ok d := by
  obtain ⟨o, atInput, rest⟩ := bind_eq_ok.mp got
  obtain ⟨t, operand, atT, rfl, atOperand, shows⟩ := shown_item shown atInput
  cases rest
  have shapeOf : item (ts.map Tensor.shape) i = .ok t.shape := by simp [item_eq_ok, atT]
  cases operand with
  | output =>
    have inOperands := List.mem_of_getElem? (item_eq_ok.mp atOperand)
    exact absurd rfl (apart _ inOperands)
  | buffer d =>
    exact ⟨t, d, atT, rfl, shows, shapeOf, by simp [requireInput, atOperand]⟩

/-- As `Extends`, for a kernel whose operands are never the output buffer. -/
def ExtendsApart (kernel : Kernel) (op : Op) : Prop :=
  ∀ {operands : List Operand} {ts : List Tensor} {kind : Kind} {shape : Shape} {math : MathMode}
    {d : Data} {old : Array (Elem kind)},
    kernel op (exactly ts kind shape math) = .ok d → shape.volume ≤ old.size → Apart operands →
    List.Forall₂ (Operand.Shows ⟨kind, old⟩ shape) operands ts →
    ∃ elems : Array (Elem kind), d = ⟨kind, elems⟩ ∧
      kernel op (within operands ts ⟨kind, old⟩ shape math) =
        .ok ⟨kind, elems ++ old.extract shape.volume old.size⟩

theorem cast_extends (k : Kind) : ExtendsApart cast (.cast k) := by
  intro operands ts kind shape math d old ran fits apart shown
  simp only [cast] at ran
  obtain ⟨src, input, ran⟩ := bind_eq_ok.mp ran
  obtain ⟨t, d', atT, rfl, ⟨slack, rfl⟩, -, input'⟩ := shown_input apart shown input
  split at ran
  · cases ran
  rename_i long
  obtain ⟨elems, filled, ran⟩ := bind_eq_ok.mp ran
  cases ran
  refine ⟨elems, rfl, ?_⟩
  simp only [cast, input', ok_bind]
  have longer : ¬ Data.size ⟨t.data.kind, t.data.elems ++ slack⟩ < shape.volume := by
    simp only [Data.size, Array.size_append] at long ⊢
    omega
  rw [if_neg longer, fill_roomy fits filled]
  · rfl
  · intro i inOld x y bound atPlace
    obtain ⟨z, got, converted⟩ := Option.map_eq_some_iff.mp atPlace
    have inElems : i < t.data.elems.size := (Array.getElem?_eq_some_iff.mp got).1
    refine Option.map_eq_some_iff.mpr ⟨z, ?_, converted⟩
    rw [Array.getElem?_append_left inElems]
    exact got

end Kernel

end TensorGraph
