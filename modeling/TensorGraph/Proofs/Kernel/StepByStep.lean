import TensorGraph.Proofs.Kernel.Fusable

/-! Fused evaluation and evaluation step by step. The steps of an expression can also be evaluated one after
another, each on whole tensors by the kernel of its own operation; the value of the last step, spread over
the shape of the result, is what the fused kernel computes block by block. -/
namespace TensorGraph

open Checked Kernel

/-- The tensor as a result of that shape: itself, or its only element at every place. -/
def Tensor.spread (t : Tensor) (s : Shape) : Option Tensor :=
  if t.shape = s then some t
  else if t.shape = [] then (t.elem? t.kind 0).bind fun x => (Tensor.full x s).toOption
  else none

namespace Expr

variable [BlockRoutine]

/-- The value of one step on whole tensors, after the values of the steps before. -/
def stepValue (math : MathMode) (ts done : List Tensor) : Step → Except Error Tensor
  | .load k => item ts k
  | .unary f a => do
    let x ← item done a
    Kernels.host.run (.unary f) [x] math
  | .binary f a b => do
    let x ← item done a
    let y ← item done b
    Kernels.host.run (.binary f) [x, y] math

/-- The values of all steps on whole tensors, after those already there. -/
def stepValues (math : MathMode) (ts : List Tensor) : List Tensor → List Step → Except Error (List Tensor)
  | done, [] => .ok done
  | done, step :: steps => do
    let x ← stepValue math ts done step
    stepValues math ts (done ++ [x]) steps

end Expr

namespace Tensor

variable {kind : Kind} {s : Shape}

/-- The tensor is of that kind, and its shape goes with results of that shape. -/
structure Fits (kind : Kind) (s : Shape) (t : Tensor) : Prop where
  kind : t.kind = kind
  shape : t.shape = s ∨ t.shape = []

/-- The elements of the tensors that count for a place of a result of that shape. -/
def Column (kind : Kind) (s : Shape) (i : Nat) (ts : List Tensor) (xs : List (Elem kind)) : Prop :=
  List.Forall₂ (fun t x => t.at? kind s.volume i = some x) ts xs

theorem Column.get {i a : Nat} {ts : List Tensor} {xs : List (Elem kind)} (column : Column kind s i ts xs)
    (inTs : a < ts.length) : ∃ x, xs[a]? = some x ∧ ts[a].at? kind s.volume i = some x := by
  have inXs : a < xs.length := by rwa [← column.length_eq]
  exact ⟨xs[a], List.getElem?_eq_getElem inXs, List.Forall₂.get column inTs inXs⟩

theorem Column.getLast {i : Nat} {ts : List Tensor} {xs : List (Elem kind)} (column : Column kind s i ts xs)
    (someTs : ts ≠ []) : xs.getLast? = (ts.getLast someTs).at? kind s.volume i := by
  obtain ⟨x, inXs, atLast⟩ := column.get (a := ts.length - 1) (by
    have := List.length_pos_iff.mpr someTs
    omega)
  rw [List.getLast_eq_getElem, atLast, List.getLast?_eq_getElem?, ← column.length_eq, inXs]

/-- One element can be repeated over a shape that there may be memory for. -/
theorem full_spec (x : Elem kind) (room : s.fits) : ∃ r, full x s = .ok r ∧ r.kind = kind ∧ r.shape = s ∧
    ∀ i, i < s.volume → r.elem? kind i = some x := by
  refine ⟨⟨s, ⟨kind, Array.replicate s.volume x⟩, by simp [Data.size], room⟩, dif_pos room, rfl, rfl, fun i inRange => ?_⟩
  rw [elem?_of_data rfl, Array.getElem?_replicate, if_pos inRange]

/-- A tensor that fits can be spread, and its elements are then those that count for each place. -/
theorem exists_spread {t : Tensor} (fits : t.Fits kind s) (room : s.fits) :
    ∃ r, t.spread s = some r ∧ r.kind = kind ∧ r.shape = s ∧
      ∀ i, i < s.volume → r.elem? kind i = t.at? kind s.volume i := by
  obtain ⟨rfl, shape⟩ := fits
  by_cases same : t.shape = s
  · subst same
    exact ⟨t, if_pos rfl, rfl, rfl, fun i _ => (t.at?_self t.kind i).symm⟩
  · have scalar := shape.resolve_left same
    obtain ⟨x, single⟩ : ∃ x, t.elem? t.kind 0 = some x := by
      rw [← t.at?_self]
      exact exists_at (by rw [scalar]; decide) rfl (.inl rfl)
    obtain ⟨r, filled, kindR, shapeR, everywhere⟩ := full_spec x room
    refine ⟨r, ?_, kindR, shapeR, fun i inRange => ?_⟩
    · rw [spread, if_neg same, if_pos scalar, single, Option.bind_some, filled]
      rfl
    · rw [everywhere i inRange]
      by_cases full : t.shape.volume = s.volume
      · -- The result has one place, like the scalar.
        have first : i = 0 := by
          rw [← full, scalar] at inRange
          simpa [Shape.volume] using inRange
        rw [← full, at?_self, first, single]
      · rw [at?_scalar full, single]

end Tensor

namespace Expr

variable {ts : List Tensor} {kind : Kind} {s : Shape}

/-- The elements that the steps load for a place of the result. -/
def loadAt (ts : List Tensor) (kind : Kind) (s : Shape) (i k : Nat) : Option (Elem kind) :=
  ts[k]?.bind fun t => t.at? kind s.volume i

variable [BlockRoutine]

/-- One step on whole tensors has a value, which has at each place what the step gives for the elements there. -/
theorem stepValue_at (math : MathMode) (inputs : ∀ t ∈ ts, t.Fits kind s) {done : List Tensor}
    (fits : ∀ t ∈ done, t.Fits kind s) {step : Step} (inRange : InRange ts.length done.length step) :
    ∃ r, stepValue math ts done step = .ok r ∧ r.Fits kind s ∧
      ∀ i, i < s.volume → ∀ regs, Tensor.Column kind s i done regs →
        ∃ x, stepAt math (loadAt ts kind s i) regs step = some x ∧ r.at? kind s.volume i = some x := by
  cases step with
  | load k =>
    have inTs : k < ts.length := inRange
    have here := inputs _ (List.getElem_mem inTs)
    refine ⟨ts[k], by simp [stepValue, item, inTs], here, fun i inShape regs _ => ?_⟩
    obtain ⟨x, atPlace⟩ := Tensor.exists_at inShape here.kind here.shape
    refine ⟨x, ?_, atPlace⟩
    rw [stepAt, loadAt, List.getElem?_eq_getElem inTs, Option.bind_some, atPlace]
  | unary f a =>
    have inDone : a < done.length := inRange
    have operand := fits _ (List.getElem_mem inDone)
    obtain ⟨r, ran, shape, kindOf⟩ := Op.eval_unary f done[a] math
    have fitsR : r.Fits kind s := ⟨kindOf.trans operand.kind, by rw [shape]; exact operand.shape⟩
    have ranHost : Kernels.host.run (.unary f) [done[a]] math = .ok r := ran
    refine ⟨r, by simpa [stepValue, item, inDone] using ranHost, fitsR, fun i inShape regs column => ?_⟩
    obtain ⟨alike, -⟩ := Op.fusable_operands rfl ran
    obtain ⟨j, inResult, here, through⟩ := Tensor.place_cases inShape fitsR.shape kind
    obtain ⟨x, inRegs, atX⟩ := column.get inDone
    obtain ⟨x', atX', result⟩ := Op.unary_elem? ran operand.kind inResult
    rw [← through _ (alike _ (by simp)).2, atX] at atX'
    cases atX'
    exact ⟨_, by rw [stepAt, inRegs, Option.map_some], by rw [here, result]⟩
  | binary f a b =>
    obtain ⟨inDoneA, inDoneB⟩ : a < done.length ∧ b < done.length := inRange
    have left := fits _ (List.getElem_mem inDoneA)
    have right := fits _ (List.getElem_mem inDoneB)
    obtain ⟨joined, ranShape, fitsJoined, -⟩ := Shape.broadcast_of_fits f.name left.shape right.shape
    obtain ⟨r, ran, shape, kindOf⟩ := Op.eval_binary (right.kind.trans left.kind.symm) ranShape math
    have fitsR : r.Fits kind s := ⟨kindOf.trans left.kind, by rwa [shape]⟩
    have ranHost : Kernels.host.run (.binary f) [done[a], done[b]] math = .ok r := ran
    refine ⟨r, by simpa [stepValue, item, inDoneA, inDoneB] using ranHost, fitsR, fun i inShape regs column => ?_⟩
    obtain ⟨alike, -⟩ := Op.fusable_operands rfl ran
    obtain ⟨j, inResult, here, through⟩ := Tensor.place_cases inShape fitsR.shape kind
    obtain ⟨x, inRegsA, atX⟩ := column.get inDoneA
    obtain ⟨y, inRegsB, atY⟩ := column.get inDoneB
    obtain ⟨x', y', atX', atY', result⟩ := Op.binary_elem? ran left.kind inResult
    rw [← through _ (alike _ (by simp)).2, atX] at atX'
    rw [← through _ (alike _ (by simp)).2, atY] at atY'
    cases atX'
    cases atY'
    exact ⟨math.binary f x y, by simp [stepAt, inRegsA, inRegsB], by rw [here, result]⟩

/-- All steps on whole tensors have values, which have at each place what the steps give for the elements there. -/
theorem stepValues_at (math : MathMode) (inputs : ∀ t ∈ ts, t.Fits kind s) {done : List Tensor}
    (fits : ∀ t ∈ done, t.Fits kind s) {steps : List Step} (checked : checkFrom ts.length kind done.length steps = .ok ()) :
    ∃ all, stepValues math ts done steps = .ok all ∧ all.length = done.length + steps.length ∧
      (∀ t ∈ all, t.Fits kind s) ∧
      ∀ i, i < s.volume → ∀ regs, Tensor.Column kind s i done regs →
        ∃ regs', stepsAt math (loadAt ts kind s i) regs steps = some regs' ∧ Tensor.Column kind s i all regs' := by
  induction steps generalizing done with
  | nil => exact ⟨done, rfl, rfl, fits, fun i _ regs column => ⟨regs, rfl, column⟩⟩
  | cons step steps ih =>
    obtain ⟨inRange, rest⟩ := checkFrom_cons checked
    obtain ⟨r, ran, fitsR, places⟩ := stepValue_at math inputs fits inRange
    have fits' : ∀ t ∈ done ++ [r], t.Fits kind s := by
      intro t member
      rcases List.mem_append.mp member with before | here
      · exact fits t before
      · rwa [List.mem_singleton.mp here]
    obtain ⟨all, ranAll, length, fitsAll, placesAll⟩ := ih fits' (by rwa [List.length_append])
    refine ⟨all, bind_eq_ok.mpr ⟨r, ran, ranAll⟩, ?_, fitsAll, fun i inShape regs column => ?_⟩
    · rw [length, List.length_append, List.length_singleton, List.length_cons]
      omega
    · obtain ⟨x, atStep, atPlace⟩ := places i inShape regs column
      obtain ⟨regs', ranRegs, column'⟩ :=
        placesAll i inShape (regs ++ [x]) (List.rel_append column (.cons atPlace .nil))
      exact ⟨regs', Option.bind_eq_some_iff.mpr ⟨x, atStep, ranRegs⟩, column'⟩

end Expr

namespace Op

/-- The fused kernel computes what the steps of the expression give one after another on whole tensors: an accepted
expression has a result on all tensors whose shapes agree, of any length, and it is the value of the last step,
spread over the shape of the result. -/
theorem fused_equals_steps [BlockRoutine] {e : Expr} {kind : Kind} {ts : List Tensor} {s : Shape}
    (checked : e.check kind = .ok ()) (kinds : ∀ t ∈ ts, t.kind = kind)
    (shaped : (Op.fused e).outputShape (ts.map Tensor.shape) = .ok s) (math : MathMode) :
    ∃ values last r, Expr.stepValues math ts [] e.steps = .ok values ∧ values.getLast? = some last ∧
      last.spread s = some r ∧ Kernels.host.run (.fused e) ts math = .ok r := by
  obtain ⟨count, shapes, whole⟩ := shapes_of_fused shaped
  rw [List.length_map] at count
  have fits : ∀ t ∈ ts, t.Fits kind s := fun t member =>
    ⟨kinds t member, shapes t.shape (List.mem_map_of_mem (f := Tensor.shape) member)⟩
  obtain ⟨someSteps, steps⟩ := Expr.check_ok checked
  rw [← count] at steps
  have noneYet : ∀ t ∈ ([] : List Tensor), t.Fits kind s := by simp
  obtain ⟨values, ranSteps, length, fitsValues, places⟩ := Expr.stepValues_at math fits noneYet steps
  have someValues : values ≠ [] := by
    rintro rfl
    exact someSteps (List.length_eq_zero_iff.mp (by simpa using length.symm))
  have room : s.fits := by
    obtain ⟨t, -, rfl⟩ := List.mem_map.mp whole
    exact t.fits
  obtain ⟨r, spreads, kindR, shapeR, spreadAt⟩ :=
    Tensor.exists_spread (fitsValues _ (List.getLast_mem someValues)) room
  obtain ⟨r', ran, shapeR', kindR'⟩ := eval_fused checked count
    (fun t member => ⟨(fits t member).kind, (fits t member).shape⟩) (List.mem_map.mp whole) math
  refine ⟨values, _, r, ranSteps, List.getLast?_eq_some_getLast someValues, spreads, ?_⟩
  have equal : r' = r := by
    refine Tensor.ext_elem? kindR' kindR (shapeR'.trans shapeR.symm) fun i inRange => ?_
    rw [shapeR'] at inRange
    obtain ⟨regs, ranRegs, last⟩ := fused_elem? ran checked kinds
      (fun t member => by rw [shapeR']; exact (fits t member).shape) (by rwa [shapeR'])
    obtain ⟨regs', ranRegs', column⟩ := places i inRange [] .nil
    rw [shapeR'] at ranRegs
    obtain rfl : regs = regs' := Option.some.inj (ranRegs.symm.trans ranRegs')
    rw [← last, spreadAt i inRange]
    exact column.getLast someValues
  rw [← equal]
  exact ran

section

open scoped BlockRoutine

/-- A vector is loaded and added to a scalar in vain: the last step squares the scalar, at every place. -/
theorem fused_equals_steps_spreadSquare :
    let e : Expr := ⟨[.load 0, .load 1, .binary .add 0 1, .binary .mul 1 1], 2⟩
    let x : Tensor := ⟨[3], ⟨.i32, #[1, 2, 3]⟩, rfl, rfl⟩
    let y : Tensor := ⟨[], ⟨.i32, #[5]⟩, rfl, rfl⟩
    e.check .i32 = .ok () ∧ (Op.fused e).outputShape [x.shape, y.shape] = .ok [3] ∧
      ∃ values last r, Expr.stepValues {} [x, y] [] e.steps = .ok values ∧ values.getLast? = some last ∧
        last.spread [3] = some r ∧ Kernels.host.run (.fused e) [x, y] {} = .ok r := by
  intro e x y
  have kinds : ∀ t ∈ [x, y], t.kind = .i32 :=
    List.forall_mem_cons.mpr ⟨rfl, List.forall_mem_singleton.mpr rfl⟩
  exact ⟨rfl, rfl, fused_equals_steps rfl kinds rfl {}⟩

end

end Op

end TensorGraph
