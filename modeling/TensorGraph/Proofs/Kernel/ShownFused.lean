import TensorGraph.Kernel.Fused
import TensorGraph.Proofs.Kernel.Shown

/-! The kernel of fused expressions in buffers larger than their values. A block is read before it is
overwritten, so an operand may be the output buffer. -/
namespace TensorGraph

open Checked

namespace Kernel

section Blocks

variable {α : Type} [Scalar α] {math : MathMode} {whole : List α}

/-- The second source gives at each place, next to what the buffer holds there, what the first
gives next to anything. -/
def Agrees (whole : List α) (s s' : Source α) : Prop :=
  ∀ i (inWhole : i < whole.length) x y, s.get i x = some y → s'.get i whole[i] = some y

omit [Scalar α] in
theorem mapFrom_agrees {s s' : Source α} (agree : Agrees whole s s') {base : Nat}
    {block block' row : List α} (sameLength : block.length = block'.length)
    (part : ∃ rest, whole.drop base = block' ++ rest)
    (ran : mapFrom s.get base block = some row) : mapFrom s'.get base block' = some row := by
  obtain ⟨rest, part⟩ := part
  obtain ⟨rowLength, places⟩ := mapFrom_eq_some.mp ran
  refine mapFrom_eq_some.mpr ⟨by omega, ?_⟩
  intro i inBlock' inRow
  have inDrop : i < (whole.drop base).length := by
    rw [part, List.length_append]
    omega
  have inWhole : base + i < whole.length := by
    rw [List.length_drop] at inDrop
    omega
  have held : block'[i] = whole[base + i] := by
    have fromDrop : (whole.drop base)[i] = block'[i] := by
      simp only [part, List.getElem_append_left inBlock']
    rw [← fromDrop, List.getElem_drop]
  rw [held]
  exact agree _ inWhole _ _ (places i (by omega) inRow)

theorem stepRow_agrees {srcs srcs' : List (Source α)}
    (agree : List.Forall₂ (Agrees whole) srcs srcs') {base : Nat} {block block' row : List α}
    {rows : List (List α)} {step : Step} (sameLength : block.length = block'.length)
    (part : ∃ rest, whole.drop base = block' ++ rest)
    (ran : stepRow math srcs base block rows step = some row) :
    stepRow math srcs' base block' rows step = some row := by
  cases step with
  | load k =>
    obtain ⟨s, atK, mapped⟩ := Option.bind_eq_some_iff.mp ran
    obtain ⟨inSrcs, rfl⟩ := List.getElem?_eq_some_iff.mp atK
    have inSrcs' : k < srcs'.length := by rwa [← agree.length_eq]
    refine Option.bind_eq_some_iff.mpr ⟨srcs'[k], List.getElem?_eq_getElem inSrcs', ?_⟩
    exact mapFrom_agrees (agree.get inSrcs inSrcs') sameLength part mapped
  | unary f a => exact ran
  | binary f a b => exact ran

theorem stepRows_agrees {srcs srcs' : List (Source α)}
    (agree : List.Forall₂ (Agrees whole) srcs srcs') {base : Nat} {block block' : List α}
    {rows rows' : List (List α)} {steps : List Step} (sameLength : block.length = block'.length)
    (part : ∃ rest, whole.drop base = block' ++ rest)
    (ran : stepRows math srcs base block rows steps = some rows') :
    stepRows math srcs' base block' rows steps = some rows' ∧
      rows'.length = rows.length + steps.length := by
  induction steps generalizing rows with
  | nil =>
    cases ran
    exact ⟨rfl, rfl⟩
  | cons step steps ih =>
    obtain ⟨row, atStep, rest⟩ := Option.bind_eq_some_iff.mp ran
    obtain ⟨ranRest, length⟩ := ih rest
    refine ⟨Option.bind_eq_some_iff.mpr ⟨row, stepRow_agrees agree sameLength part atStep, ?_⟩, ?_⟩
    · exact ranRest
    · simp only [length, List.length_append, List.length_cons, List.length_nil]
      omega

theorem runBlock_agrees {srcs srcs' : List (Source α)}
    (agree : List.Forall₂ (Agrees whole) srcs srcs') {base : Nat} {block block' row : List α}
    {steps : List Step} (someSteps : steps ≠ []) (sameLength : block.length = block'.length)
    (part : ∃ rest, whole.drop base = block' ++ rest)
    (ran : runBlock math steps srcs base block = some row) :
    runBlock math steps srcs' base block' = some row := by
  obtain ⟨rows, ranRows, last⟩ := Option.bind_eq_some_iff.mp ran
  obtain ⟨ranRows', length⟩ := stepRows_agrees agree sameLength part ranRows
  refine Option.bind_eq_some_iff.mpr ⟨rows, ranRows', ?_⟩
  have someRows : rows ≠ [] := by
    intro none
    have stepCount := List.length_pos_iff.mpr someSteps
    simp only [none, List.length_nil, Nat.zero_add] at length
    omega
  rw [List.getLast?_eq_some_getLast someRows] at last ⊢
  exact last

theorem runBlocks_agrees {srcs srcs' : List (Source α)}
    (agree : List.Forall₂ (Agrees whole) srcs srcs') {steps : List Step} (someSteps : steps ≠ [])
    {size : Nat} (old : List α) {base : Nat} {old' new : List α}
    (sameLength : old.length = old'.length) (part : whole.drop base = old')
    (ran : runBlocks math steps srcs size base old = some new) :
    runBlocks math steps srcs' size base old' = some new := by
  rw [runBlocks] at ran ⊢
  split at ran
  · rename_i more
    obtain ⟨head, ranHead, rest⟩ := Option.bind_eq_some_iff.mp ran
    obtain ⟨tail, ranTail, whole⟩ := Option.bind_eq_some_iff.mp rest
    have headLength : (old.take size).length = (old'.take size).length := by
      simp [sameLength]
    have headPart : ∃ rest, List.drop base _ = old'.take size ++ rest :=
      ⟨old'.drop size, by rw [part, List.take_append_drop]⟩
    have tailLength : (old.drop size).length = (old'.drop size).length := by
      simp [sameLength]
    rw [dif_pos (by omega)]
    refine Option.bind_eq_some_iff.mpr
      ⟨head, runBlock_agrees agree someSteps headLength headPart ranHead, ?_⟩
    refine Option.bind_eq_some_iff.mpr ⟨tail, ?_, whole⟩
    exact runBlocks_agrees agree someSteps (old.drop size) tailLength
      (by rw [← part, List.drop_drop]) ranTail
  · rename_i done
    rw [dif_neg (by omega)]
    exact ran
termination_by old.length
decreasing_by simp only [List.length_drop]; omega

end Blocks

theorem sources_shown {kind : Kind} {old : Array (Elem kind)} {shape : Shape}
    (fits : shape.volume ≤ old.size) {operands : List Operand} {ts : List Tensor}
    (shown : List.Forall₂ (Operand.Shows ⟨kind, old⟩ shape) operands ts)
    {srcs : List (Source (Elem kind))}
    (resolved : sources kind shape.volume (ts.map fun t => .buffer t.data)
      (ts.map Tensor.shape) = .ok srcs) :
    ∃ srcs', sources kind shape.volume operands (ts.map Tensor.shape) = .ok srcs' ∧
      List.Forall₂ (Agrees (old.extract 0 shape.volume).toList) srcs srcs' := by
  induction shown generalizing srcs with
  | nil =>
    cases resolved
    exact ⟨[], rfl, .nil⟩
  | @cons operand t operands ts head tail ih =>
    obtain ⟨s, atHead, rest⟩ := bind_eq_ok.mp resolved
    obtain ⟨more, atRest, whole⟩ := bind_eq_ok.mp rest
    cases whole
    obtain ⟨s', atHead', agree⟩ := source_shown fits head atHead
    obtain ⟨more', atRest', agreeRest⟩ := ih atRest
    refine ⟨s' :: more', ?_, .cons ?_ agreeRest⟩
    · simp only [sources, List.map_cons, atHead', atRest', ok_bind]
      rfl
    · intro i inStart x y got
      have bound : i < shape.volume := by
        simp only [Array.length_toList, Array.size_extract] at inStart
        omega
      have held := agree i (by omega) x y bound got
      simpa using held

theorem fused_extends (e : Expr) (someSteps : e.steps ≠ []) : Extends fused (.fused e) := by
  intro operands ts kind shape math d old ran fits shown
  simp only [fused, exactly] at ran
  split at ran
  · cases ran
  rename_i count
  rw [if_neg (by simp [Data.size])] at ran
  obtain ⟨srcs, resolved, ran⟩ := bind_eq_ok.mp ran
  obtain ⟨srcs', resolved', agree⟩ := sources_shown fits shown resolved
  split at ran
  · rename_i xs blocks
    cases ran
    have blocks' : runBlocks math e.steps srcs' blockSize 0 (old.extract 0 shape.volume).toList =
        some xs := runBlocks_agrees agree someSteps _ (by simp [fits]) rfl blocks
    have counted : ¬ operands.length ≠ e.inputs := by
      rw [shown.length_eq, ← List.length_map (f := fun t => Operand.buffer t.data)]
      exact count
    have roomy : ¬ Data.size ⟨kind, old⟩ < shape.volume := Nat.not_lt.mpr fits
    refine ⟨xs.toArray, by simp [Data.size], ?_⟩
    simp only [fused, within, if_neg counted, if_neg roomy, resolved', ok_bind, blocks']
    rfl
  · cases ran

end Kernel

end TensorGraph
