import TensorGraph.Proofs.Kernel.Coordinates

/-! Reductions combine lanes. The elements whose coordinates differ along the reduced axis alone make up one
lane, which is combined from left to right into one element of the result. -/
namespace TensorGraph

open Checked Kernel

namespace Shape

/-- The coordinates of the elements that are combined into the element at `o`, in their order. -/
def lane (s : Shape) : Option Nat → List Nat → List (List Nat)
  | none, _ => s.coordinates
  | some axis, o => (List.range (s.getD axis 0)).map fun j => o.insertIdx axis j

section Around

variable {outer inner : Shape} {len : Nat} {x y o : List Nat}

end Around

variable {s : Shape} {axis : Option Nat}

end Shape

namespace Op

theorem outputShape_reduce (f : Reduction) {axis : Option Nat} {s : Shape} (inRange : ∀ a ∈ axis, a < s.length) :
    (Op.reduce f axis).outputShape [s] = .ok (s.without axis) := by
  have counted : ¬ ([s] : List Shape).length ≠ (Op.reduce f axis).arity := by simp [arity]
  simp only [outputShape, if_neg counted]
  cases axis with
  | none => rfl
  | some axis => exact if_pos (inRange axis rfl)

/-- A reduction has a result of the shape that is left, unless the operand has no elements and sizes are out of range. -/
theorem run_reduce [BlockRoutine] (f : Reduction) {axis : Option Nat} {t : Tensor}
    (inRange : ∀ a ∈ axis, a < t.shape.length) (math : MathMode) :
    (∃ r, Kernels.host.run (.reduce f axis) [t] math = .ok r ∧ r.shape = t.shape.without axis) ∨
      t.shape.volume = 0 ∧ ¬ ((Op.reduce f axis).counts [t.shape] ∧ (t.shape.without axis).fits) ∧
        Kernels.host.run (.reduce f axis) [t] math = .error .crash := by
  have computes : ¬ (Op.reduce f axis).isTransfer := Bool.false_ne_true
  have shaped : (Op.reduce f axis).outputShape ([t].map Tensor.shape) = .ok (t.shape.without axis) :=
    outputShape_reduce f inRange
  by_cases counted : (Op.reduce f axis).counts [t.shape] ∧ (t.shape.without axis).fits
  · have result := resultShape_eq_ok.mpr ⟨shaped, counted⟩
    obtain ⟨r, ran, shape, -⟩ := eval_of_completes computes rfl rfl result (reduce_total f axis rfl shaped math)
    exact .inl ⟨r, (eval_computed computes ..).symm.trans ran, shape⟩
  · refine .inr ⟨?_, counted, run_of_resultShape_error computes (resultShape_crash shaped counted) math⟩
    by_contra elements
    exact counted (reduce_sizes f (Nat.pos_of_ne_zero elements) (Shape.volume_lt_of_fits t.fits) inRange [])

section

open scoped BlockRoutine

end

end Op

end TensorGraph
