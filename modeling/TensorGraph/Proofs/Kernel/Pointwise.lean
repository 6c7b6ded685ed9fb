import TensorGraph.Proofs.Kernel.Elements

/-! Fused expressions place by place. The kernel works on rows of registers, block after block, but each place
of the result depends on the inputs at that place alone: it is what the steps give for them. -/
namespace TensorGraph

open Checked Kernel

namespace Expr

variable {α : Type} [Scalar α]

/-- The result of one step at one place, after the results of the steps before. -/
def stepAt (math : MathMode) (load : Nat → Option α) (done : List α) : Step → Option α
  | .load k => load k
  | .unary f a => done[a]?.map (math.unary f)
  | .binary f a b => do
    let x ← done[a]?
    let y ← done[b]?
    some (math.binary f x y)

/-- The results of all steps at one place, after those already there. -/
def stepsAt (math : MathMode) (load : Nat → Option α) : List α → List Step → Option (List α)
  | done, [] => some done
  | done, step :: steps => do
    let x ← stepAt math load done step
    stepsAt math load (done ++ [x]) steps

variable {math : MathMode} {load : Nat → Option α}

theorem stepsAt_append {done : List α} {steps more : List Step} :
    stepsAt math load done (steps ++ more) =
      (stepsAt math load done steps).bind fun regs => stepsAt math load regs more := by
  induction steps generalizing done with
  | nil => rfl
  | cons step steps ih =>
    simp only [List.cons_append, stepsAt, Option.bind_eq_bind, Option.bind_assoc, ih]

theorem stepsAt_length {done regs : List α} {steps : List Step}
    (ran : stepsAt math load done steps = some regs) : regs.length = done.length + steps.length := by
  induction steps generalizing done with
  | nil =>
    cases ran
    rfl
  | cons step steps ih =>
    obtain ⟨x, -, rest⟩ := Option.bind_eq_some_iff.mp ran
    rw [ih rest, List.length_append, List.length_cons, List.length_cons, List.length_nil]
    omega

theorem stepsAt_prefix {done regs : List α} {steps : List Step}
    (ran : stepsAt math load done steps = some regs) : done <+: regs := by
  induction steps generalizing done with
  | nil =>
    cases ran
    exact List.prefix_rfl
  | cons step steps ih =>
    obtain ⟨x, -, rest⟩ := Option.bind_eq_some_iff.mp ran
    exact (List.prefix_append done [x]).trans (ih rest)

/-- More inputs do not change the results. -/
theorem stepsAt_mono {load' : Nat → Option α} (more : ∀ k x, load k = some x → load' k = some x)
    {done regs : List α} {steps : List Step} (ran : stepsAt math load done steps = some regs) :
    stepsAt math load' done steps = some regs := by
  induction steps generalizing done with
  | nil => exact ran
  | cons step steps ih =>
    obtain ⟨x, here, rest⟩ := Option.bind_eq_some_iff.mp ran
    refine Option.bind_eq_some_iff.mpr ⟨x, ?_, ih rest⟩
    cases step with
    | load k => exact more k x here
    | unary f a => exact here
    | binary f a b => exact here

/-- The result of a step that loads is the input. -/
theorem stepsAt_load {done regs : List α} {steps : List Step}
    (ran : stepsAt math load done steps = some regs) {i k : Nat} (step : steps[i]? = some (.load k)) :
    regs[done.length + i]? = load k := by
  induction steps generalizing done i with
  | nil => cases step
  | cons first steps ih =>
    obtain ⟨x, here, rest⟩ := Option.bind_eq_some_iff.mp ran
    cases i with
    | zero =>
      obtain rfl : first = .load k := by simpa using step
      obtain ⟨more, rfl⟩ := stepsAt_prefix rest
      rw [Nat.add_zero, List.append_assoc, List.getElem?_append_right (Nat.le_refl _)]
      simpa [stepAt] using here.symm
    | succ i =>
      have found := ih rest (by simpa using step)
      rw [List.length_append, List.length_singleton] at found
      rw [← found]
      congr 1
      omega

end Expr

namespace Kernel

section Rows

open TensorGraph.Expr

variable {α : Type} [Scalar α] {math : MathMode} {srcs : List (Source α)}

/-- Registers at one place of a block, out of the rows. -/
def Column (i : Nat) (rows : List (List α)) (regs : List α) : Prop :=
  List.Forall₂ (fun row x => row[i]? = some x) rows regs

omit [Scalar α] in
theorem Column.get {i a : Nat} {rows : List (List α)} {regs : List α} (column : Column i rows regs)
    {row : List α} (atA : rows[a]? = some row) : ∃ x, regs[a]? = some x ∧ row[i]? = some x := by
  obtain ⟨inRows, rfl⟩ := List.getElem?_eq_some_iff.mp atA
  have inRegs : a < regs.length := by rwa [← column.length_eq]
  exact ⟨regs[a], List.getElem?_eq_getElem inRegs, List.Forall₂.get column inRows inRegs⟩

theorem stepRow_column {base : Nat} {block row : List α} {rows : List (List α)} {regs : List α}
    {step : Step} (ran : stepRow math srcs base block rows step = some row) {i : Nat}
    (inBlock : i < block.length) (column : Column i rows regs) :
    ∃ x, stepAt math (fun k => srcs[k]?.bind fun s => s.get (base + i) block[i]) regs step = some x ∧
      row[i]? = some x := by
  cases step with
  | load k =>
    obtain ⟨s, atK, mapped⟩ := Option.bind_eq_some_iff.mp ran
    obtain ⟨length, places⟩ := mapFrom_eq_some.mp mapped
    have inRow : i < row.length := by omega
    refine ⟨row[i], ?_, List.getElem?_eq_getElem inRow⟩
    simp only [stepAt, atK, Option.bind_some]
    exact places i inBlock inRow
  | unary f a =>
    obtain ⟨xs, atA, mapped⟩ := Option.bind_eq_some_iff.mp ran
    cases mapped
    obtain ⟨x, inRegs, atI⟩ := column.get atA
    exact ⟨math.unary f x, by simp [stepAt, inRegs], by simp [atI]⟩
  | binary f a b =>
    obtain ⟨xs, atA, rest⟩ := Option.bind_eq_some_iff.mp ran
    obtain ⟨ys, atB, mapped⟩ := Option.bind_eq_some_iff.mp rest
    cases mapped
    obtain ⟨x, inRegsA, atIA⟩ := column.get atA
    obtain ⟨y, inRegsB, atIB⟩ := column.get atB
    exact ⟨math.binary f x y, by simp [stepAt, inRegsA, inRegsB],
      by simp [List.getElem?_zipWith, atIA, atIB]⟩

theorem stepRows_column {base : Nat} {block : List α} {rows rows' : List (List α)} {steps : List Step}
    (ran : stepRows math srcs base block rows steps = some rows') {i : Nat}
    (inBlock : i < block.length) {regs : List α} (column : Column i rows regs) :
    ∃ regs', stepsAt math (fun k => srcs[k]?.bind fun s => s.get (base + i) block[i]) regs steps =
      some regs' ∧ Column i rows' regs' := by
  induction steps generalizing rows regs with
  | nil =>
    cases ran
    exact ⟨regs, rfl, column⟩
  | cons step steps ih =>
    obtain ⟨row, here, rest⟩ := Option.bind_eq_some_iff.mp ran
    obtain ⟨x, atStep, atI⟩ := stepRow_column here inBlock column
    obtain ⟨regs', ranRest, column'⟩ := ih rest (List.rel_append column (.cons atI .nil))
    exact ⟨regs', Option.bind_eq_some_iff.mpr ⟨x, atStep, ranRest⟩, column'⟩

theorem runBlock_at {base : Nat} {block row : List α} {steps : List Step} (someSteps : steps ≠ [])
    (ran : runBlock math steps srcs base block = some row) {i : Nat} (inBlock : i < block.length) :
    ∃ regs, stepsAt math (fun k => srcs[k]?.bind fun s => s.get (base + i) block[i]) [] steps =
      some regs ∧ regs.getLast? = row[i]? := by
  obtain ⟨rows, ranRows, last⟩ := Option.bind_eq_some_iff.mp ran
  have noRows : Column i ([] : List (List α)) [] := .nil
  obtain ⟨regs, ranRegs, column⟩ := stepRows_column ranRows inBlock noRows
  refine ⟨regs, ranRegs, ?_⟩
  have length := stepsAt_length ranRegs
  have stepCount := List.length_pos_iff.mpr someSteps
  have someRows : rows ≠ [] := by
    intro none
    have lengths := column.length_eq
    simp only [none, List.length_nil] at lengths length
    omega
  have someRegs : regs ≠ [] := by
    rintro rfl
    simp only [List.length_nil] at length
    omega
  rw [List.getLast?_eq_some_getLast someRows] at last
  obtain rfl : rows.getLast someRows = row := Option.some.inj last
  rw [List.getLast?_eq_getElem?]
  have atLast : rows[rows.length - 1]? = some (rows.getLast someRows) := by
    rw [← List.getLast?_eq_getElem?, List.getLast?_eq_some_getLast someRows]
  obtain ⟨x, inRegs, atI⟩ := column.get atLast
  rw [atI, ← column.length_eq, inRegs]

theorem runBlock_length {base : Nat} {block row : List α} {steps : List Step} {n : Nat}
    {kind : Kind} (covers : ∀ s ∈ srcs, s.Covers n)
    (checked : Expr.checkFrom srcs.length kind 0 steps = .ok ()) (part : base + block.length ≤ n)
    (ran : runBlock math steps srcs base block = some row) : row.length = block.length := by
  obtain ⟨row', ran', length⟩ := runBlock_total math covers part checked
  rw [Option.some.inj (ran.symm.trans ran')]
  exact length

theorem runBlocks_at {n : Nat} {kind : Kind} {steps : List Step} (someSteps : steps ≠ [])
    (covers : ∀ s ∈ srcs, s.Covers n) (checked : Expr.checkFrom srcs.length kind 0 steps = .ok ())
    {size : Nat} (positive : 0 < size) (old : List α) {base : Nat} {new : List α}
    (part : 0 < old.length → base + old.length ≤ n)
    (ran : runBlocks math steps srcs size base old = some new) {i : Nat} (inOld : i < old.length) :
    ∃ regs, stepsAt math (fun k => srcs[k]?.bind fun s => s.get (base + i) old[i]) [] steps =
      some regs ∧ regs.getLast? = new[i]? := by
  rw [runBlocks, dif_pos ⟨positive, Nat.zero_lt_of_lt inOld⟩] at ran
  obtain ⟨head, ranHead, rest⟩ := Option.bind_eq_some_iff.mp ran
  obtain ⟨tail, ranTail, whole⟩ := Option.bind_eq_some_iff.mp rest
  cases whole
  have bound := part (Nat.zero_lt_of_lt inOld)
  have headLength : head.length = (old.take size).length :=
    runBlock_length covers checked (by rw [List.length_take]; omega) ranHead
  by_cases first : i < size
  · have inHead : i < (old.take size).length := by
      rw [List.length_take]
      omega
    obtain ⟨regs, ranRegs, last⟩ := runBlock_at someSteps ranHead inHead
    rw [List.getElem_take] at ranRegs
    exact ⟨regs, ranRegs, by rw [last, List.getElem?_append_left (by omega)]⟩
  · have full : (old.take size).length = size := by
      rw [List.length_take]
      omega
    have inTail : i - size < (old.drop size).length := by
      rw [List.length_drop]
      omega
    have partTail : 0 < (old.drop size).length → base + size + (old.drop size).length ≤ n := by
      rw [List.length_drop]
      omega
    obtain ⟨regs, ranRegs, last⟩ :=
      runBlocks_at someSteps covers checked positive (old.drop size) partTail ranTail inTail
    have place : base + size + (i - size) = base + i := by omega
    have inside : size + (i - size) = i := by omega
    simp only [place, List.getElem_drop, inside] at ranRegs
    refine ⟨regs, ranRegs, ?_⟩
    rw [last, List.getElem?_append_right (by omega), headLength, full]
termination_by old.length
decreasing_by simp only [List.length_drop]; omega

end Rows

theorem sources_at {kind : Kind} {n : Nat} {ts : List Tensor} {srcs : List (Source (Elem kind))}
    (resolved : sources kind n (ts.map fun t => .buffer t.data) (ts.map Tensor.shape) = .ok srcs) :
    List.Forall₂ (fun s t => ∀ i old, s.get i old = t.at? kind n i) srcs ts := by
  induction ts generalizing srcs with
  | nil =>
    cases resolved
    exact .nil
  | cons t ts ih =>
    obtain ⟨s, atHead, rest⟩ := bind_eq_ok.mp resolved
    obtain ⟨more, atRest, whole⟩ := bind_eq_ok.mp rest
    cases whole
    exact .cons (fun i old => source_at atHead i old) (ih atRest)

end Kernel

namespace Op

/-- The elements of a fused result. -/
theorem fused_elem? [BlockRoutine] {e : Expr} {math : MathMode} {ts : List Tensor} {r : Tensor} {kind : Kind}
    (ran : (Op.fused e).eval math ts = .ok r) (checked : e.check kind = .ok ())
    (kinds : ∀ t ∈ ts, t.kind = kind) (fits : ∀ t ∈ ts, t.shape = r.shape ∨ t.shape = []) {i : Nat}
    (inRange : i < r.shape.volume) :
    ∃ regs, Expr.stepsAt math (fun k => ts[k]?.bind fun t => t.at? kind r.shape.volume i) [] e.steps =
      some regs ∧ regs.getLast? = r.elem? kind i := by
  have computes : ¬ (Op.fused e).isTransfer := Bool.false_ne_true
  obtain ⟨first, rest, kind', rfl, same, computed⟩ := kernel_of_eval Kernel.fused computes rfl ran
  obtain rfl : kind' = kind := same.trans (kinds first (by simp))
  obtain ⟨someSteps, steps⟩ := Expr.check_ok checked
  simp only [Kernel.fused] at computed
  split at computed
  · cases computed
  rename_i count
  rw [if_neg (by simp [Data.size])] at computed
  obtain ⟨srcs, resolved, computed⟩ := bind_eq_ok.mp computed
  obtain ⟨srcs', resolved', length, covers⟩ := sources_total kinds fits
  obtain rfl : srcs = srcs' := Except.ok.inj (resolved.symm.trans resolved')
  have agree := sources_at resolved
  rw [not_not, List.length_map, ← length] at count
  rw [← count] at steps
  split at computed
  swap
  · cases computed
  rename_i xs blocks
  have inOld : i < ((Array.replicate r.shape.volume (Scalar.zero : Elem kind')).extract 0
      r.shape.volume).toList.length := by simpa using inRange
  obtain ⟨regs, ranRegs, last⟩ :=
    runBlocks_at someSteps covers steps (by decide) _ (by simp) blocks inOld
  refine ⟨regs, ?_, ?_⟩
  · refine Expr.stepsAt_mono (fun k x got => ?_) ranRegs
    obtain ⟨s, atK, value⟩ := Option.bind_eq_some_iff.mp got
    obtain ⟨inSrcs, rfl⟩ := List.getElem?_eq_some_iff.mp atK
    have inTs : k < (first :: rest).length := by rwa [← agree.length_eq]
    have here := agree.get inSrcs inTs
    simp only [List.get_eq_getElem] at here
    rw [here, Nat.zero_add] at value
    rw [List.getElem?_eq_getElem inTs]
    exact value
  · rw [Tensor.elem?_of_data (Except.ok.inj computed).symm, last]
    simp [Data.size]

end Op

end TensorGraph
