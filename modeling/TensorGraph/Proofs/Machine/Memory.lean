import TensorGraph.Device.Memory

/-! What lives in a memory after each of its operations, block by block. -/
namespace TensorGraph

namespace Memory

variable {m : Memory} {b b' : BlockId}

theorem lt_of_get? {block : Block} (at_ : m.get? b = some block) : b < m.next := by
  have found := Option.join_eq_some_iff.mp at_
  exact (Array.getElem?_eq_some_iff.mp found).1

theorem get?_next : m.get? m.next = none := by
  simp [get?, next]

theorem get?_set {block : Block} (at_ : m.get? b = some block) (x : Option Block) :
    (m.set b x).get? b' = if b' = b then x else m.get? b' := by
  have inside : b < m.blocks.size := lt_of_get? at_
  unfold set get?
  rw [Array.getElem?_setIfInBounds]
  by_cases same : b = b'
  · subst same
    simp [inside]
  · simp [same, Ne.symm same]

@[simp] theorem next_set (x : Option Block) : (m.set b x).next = m.next := by
  simp [set, next]

theorem get?_alloc (kind : Kind) (n : Nat) : (m.alloc kind n).get? b =
    if b = m.next then some { data := .zeros kind n, bytes := n * kind.bytes, holders := 1 }
    else m.get? b := by
  unfold alloc get? next
  rw [Array.getElem?_push]
  split
  · rfl
  · rfl

@[simp] theorem next_alloc (kind : Kind) (n : Nat) : (m.alloc kind n).next = m.next + 1 := by
  simp [alloc, next]

/-- An operation that changes one block as long as it lives. -/
theorem get?_update {f : Memory → BlockId → Memory} {change : Block → Option Block}
    (here : ∀ block, m.get? b = some block → ∀ b', (f m b).get? b' = (m.set b (change block)).get? b')
    (gone : m.get? b = none → f m b = m) :
    (f m b).get? b' = if b' = b then (m.get? b).bind change else m.get? b' := by
  cases at_ : m.get? b with
  | none =>
    rw [gone at_]
    by_cases same : b' = b
    · rw [if_pos same, same, at_]
      rfl
    · rw [if_neg same]
  | some block =>
    rw [here block at_, get?_set at_]
    rfl

theorem get?_retain : (m.retain b).get? b' =
    if b' = b then (m.get? b).map fun block => { block with holders := block.holders + 1 }
    else m.get? b' := by
  rw [Option.map_eq_bind]
  refine get?_update (f := retain) (fun block at_ b' => ?_) fun gone => ?_
  · simp only [retain, at_]
    rfl
  · simp only [retain, gone]

theorem get?_release : (m.release b).get? b' =
    if b' = b then (m.get? b).bind fun block =>
      if block.holders ≤ 1 then none else some { block with holders := block.holders - 1 }
    else m.get? b' := by
  refine get?_update (f := release) (fun block at_ b' => ?_) fun gone => ?_
  · simp only [release, at_]
    split <;> rfl
  · simp only [release, gone]

theorem get?_write (data : Data) : (m.write b data).get? b' =
    if b' = b then (m.get? b).map fun block => { block with data } else m.get? b' := by
  rw [Option.map_eq_bind]
  refine get?_update (f := fun m b => m.write b data) (fun block at_ b' => ?_) fun gone => ?_
  · simp only [write, at_]
    rfl
  · simp only [write, gone]

theorem get?_damage : (m.damage b).get? b' =
    if b' = b then (m.get? b).map fun block => { block with broken := true } else m.get? b' := by
  rw [Option.map_eq_bind]
  refine get?_update (f := damage) (fun block at_ b' => ?_) fun gone => ?_
  · simp only [damage, at_]
    rfl
  · simp only [damage, gone]

@[simp] theorem next_retain : (m.retain b).next = m.next := by
  unfold retain
  split <;> simp

@[simp] theorem next_release : (m.release b).next = m.next := by
  unfold release
  split
  · split
    · exact next_set _
    · exact next_set _
  · rfl

@[simp] theorem next_write (data : Data) : (m.write b data).next = m.next := by
  unfold write
  split <;> simp

@[simp] theorem next_damage : (m.damage b).next = m.next := by
  unfold damage
  split <;> simp

theorem holders_eq : m.holders b = ((m.get? b).map Block.holders).getD 0 := by
  unfold holders
  split <;> simp_all

end Memory

end TensorGraph
