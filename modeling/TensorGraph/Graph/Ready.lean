import TensorGraph.Graph.Order

/-!
The order of operations by counting. What some variables need is marked from them backwards. Each marked operation has
the number of producers that it still waits for and the list of those that wait for it, and among the operations that
wait for nothing the earliest runs first.
-/

namespace TensorGraph.Graph

/-- How sets of operations list their members: each of them once, in an order of their own. -/
structure SetOrder where
  /-- The members of the set number `i` that was made from a list. -/
  list : Nat → List NodeId → List NodeId
  nodup : ∀ i ps, (list i ps).Nodup
  mem : ∀ {i ps p}, p ∈ list i ps ↔ p ∈ ps

/-- Sets as lists without repetition. -/
def SetOrder.distinct : SetOrder where
  list _ ps := ps.foldr List.insert []
  nodup _ ps := by
    induction ps with
    | nil => exact .nil
    | cons p ps ih =>
      rw [List.foldr_cons, List.insert]
      split
      · exact ih
      · rename_i fresh
        exact List.nodup_cons.mpr ⟨fun member => fresh (List.elem_eq_true_of_mem member), ih⟩
  mem {_ ps _} := by
    induction ps with
    | nil => rfl
    | cons p ps ih => rw [List.foldr_cons, List.mem_insert_iff, ih, List.mem_cons]

/-- Entry `i` of a table; a missing one is a crash. -/
def entry {α : Type} (xs : Array α) (i : Nat) : Except Error α :=
  match xs[i]? with
  | some x => .ok x
  | none => .error .crash

/-- The table with entry `i` changed; a missing one is a crash. -/
def adjust {α : Type} (xs : Array α) (i : Nat) (f : α → α) : Except Error (Array α) :=
  match xs[i]? with
  | some x => .ok (xs.setIfInBounds i (f x))
  | none => .error .crash

/-- A new mark leaves fewer operations without one. -/
theorem count_false_set {marks : Array Bool} {i : Nat} (unmarked : marks[i]? = some false) :
    (marks.setIfInBounds i true).count false < marks.count false := by
  obtain ⟨inRange, without⟩ := Array.getElem?_eq_some_iff.mp unmarked
  have atLeastOne : 0 < marks.count false := Array.count_pos_iff.mpr (Array.mem_of_getElem? unmarked)
  rw [Array.setIfInBounds_def, dif_pos inRange, Array.count_set inRange, without]
  exact Nat.sub_lt atLeastOne Nat.one_pos

/-- Marks the operations that compute the variables on the stack, and in turn all that these need. -/
def mark (g : Graph) (marks : Array Bool) : List VarId → Except Error (Array Bool)
  | [] => .ok marks
  | v :: stack =>
    match g.producer? v with
    | none => mark g marks stack
    | some n =>
      if _unmarked : marks[n.id]? = some false then
        mark g (marks.setIfInBounds n.id true) (n.inputs.reverse ++ stack)
      else if marks[n.id]? = some true then mark g marks stack
      else .error .crash
termination_by stack => (marks.count false, stack.length)
decreasing_by
  · exact .right _ (Nat.lt_succ_self _)
  · exact .left _ _ (count_false_set _unmarked)
  · exact .right _ (Nat.lt_succ_self _)

/-- How many producers each operation waits for, and which operations wait for it. -/
structure Waiting where
  left : Array Nat
  readers : Array (List NodeId)

/-- Operation `n` waits for the operations `ps`. -/
def Waiting.enter (w : Waiting) (n : NodeId) (ps : List NodeId) : Except Error Waiting := do
  let left ← adjust w.left n fun _ => ps.length
  let readers ← ps.foldlM (fun readers p => adjust readers p (· ++ [n])) w.readers
  return { left, readers }

/-- What each of the operations `live` waits for. -/
def waiting (g : Graph) (sets : SetOrder) (live : List Node) : Except Error Waiting :=
  live.foldlM (fun w n => w.enter n.id (sets.list n.id (g.producers n)))
    { left := .replicate g.nodes.size 0, readers := .replicate g.nodes.size [] }

/-- Takes one off the counts of the operations `ns`, and adds those that now wait for nothing to the ready ones. A count
below zero is a crash. -/
def release (left : Array Nat) (ready : List NodeId) : List NodeId → Except Error (Array Nat × List NodeId)
  | [] => .ok (left, ready)
  | n :: ns =>
    match left[n]? with
    | some (count + 1) => release (left.setIfInBounds n count) (if count = 0 then n :: ready else ready) ns
    | _ => .error .crash

/-- How many producers are waited for in all. -/
def total (counts : List Nat) : Nat := counts.foldr (· + ·) 0

theorem total_set {xs : List Nat} {i x : Nat} (at_ : xs[i]? = some (x + 1)) : total (xs.set i x) + 1 = total xs := by
  induction xs generalizing i with
  | nil => simp at at_
  | cons y xs ih =>
    cases i with
    | zero =>
      obtain rfl : y = x + 1 := by simpa using at_
      simp only [total, List.set_cons_zero, List.foldr_cons]
      omega
    | succ i =>
      have rest := ih at_
      simp only [total, List.set_cons_succ, List.foldr_cons] at rest ⊢
      omega

/-- What becomes ready no longer counts as waiting. -/
theorem release_total {left left' : Array Nat} {ready ready' ns : List NodeId}
    (released : release left ready ns = .ok (left', ready')) :
    total left'.toList + ready'.length ≤ total left.toList + ready.length := by
  induction ns generalizing left ready with
  | nil =>
    cases released
    exact Nat.le_refl _
  | cons n ns ih =>
    unfold release at released
    split at released
    · rename_i count at_
      have one : total (left.toList.set n count) + 1 = total left.toList := total_set (by simpa using at_)
      have rest := ih released
      rw [Array.toList_setIfInBounds] at rest
      split at rest
      · rw [List.length_cons] at rest
        omega
      · omega
    · cases released

/-- Lists the earliest ready operation, releases those that wait for it, and goes on until none is ready. -/
def drain (readers : Array (List NodeId)) (left : Array Nat) (ready : List NodeId) : Except Error (List NodeId) :=
  match _least : ready.min? with
  | none => .ok []
  | some n =>
    match readers[n]? with
    | none => .error .crash
    | some ns =>
      match _released : release left (ready.erase n) ns with
      | .error e => .error e
      | .ok (left', ready') => (n :: ·) <$> drain readers left' ready'
termination_by total left.toList + ready.length
decreasing_by
  have member := (List.min?_eq_some_iff.mp _least).1
  have rest := release_total _released
  rw [List.length_erase_of_mem member] at rest
  have atLeastOne := List.length_pos_of_mem member
  omega

/-- The operations that the variables depend on, each after those it waits for and otherwise the earliest first. -/
def topologicalOrder (g : Graph) (sets : SetOrder) (roots : List VarId) : Except Error (List NodeId) := do
  roots.forM fun v => discard (g.var v)
  let marks ← g.mark (.replicate g.nodes.size false) roots.reverse
  let live ← g.nodes.toList.filterM fun n => entry marks n.id
  let w ← g.waiting sets live
  let ready ← live.filterM fun n => (· == 0) <$> entry w.left n.id
  let order ← drain w.readers w.left (ready.map Node.id)
  if order.length ≠ marks.count true then .error (.construction "graph" "cycle detected")
  else return order

end TensorGraph.Graph
