import TensorGraph.Graph.Ready
import TensorGraph.Proofs.Graph.Live

/-! What some variables need. An operation is live when some root needs it, and marking from the roots backwards ends
with exactly the live operations marked. -/
namespace TensorGraph

open Checked

namespace Graph

variable {g : Graph} {d : Discipline} {roots : List VarId}

/-- A variable needs the operation that computes it, and whatever the operands of that operation need. -/
inductive Needs (g : Graph) : VarId → Node → Prop where
  | producer {v : VarId} {n : Node} (produced : g.producer? v = some n) : Needs g v n
  | operand {v u : VarId} {m n : Node} (produced : g.producer? v = some m) (reads : u ∈ m.inputs)
      (needs : Needs g u n) : Needs g v n

theorem Needs.further {v u : VarId} {m n : Node} (needs : g.Needs v m) (reads : u ∈ m.inputs)
    (produced : g.producer? u = some n) : g.Needs v n := by
  induction needs with
  | producer first => exact .operand first reads (.producer produced)
  | operand first along _ ih => exact .operand first along (ih reads)

/-- Live are the operations that some root needs. -/
theorem Sound.mem_live_iff_needs (sound : g.Sound d) {n : Node} :
    n ∈ g.liveNodes roots ↔ ∃ v ∈ roots, g.Needs v n := by
  constructor
  · intro live
    refine sound.live_induction (motive := fun n => ∃ v ∈ roots, g.Needs v n) (fun n live later => ?_) live
    have produced := sound.producer?_output (sound.live_mem live)
    rcases (sound.mem_live.mp live).2 with root | ⟨m, liveM, reads⟩
    · exact ⟨_, root, .producer produced⟩
    · have less := (sound.node (sound.live_mem liveM)).reads _ reads
      obtain ⟨v, root, needs⟩ := later m liveM less
      exact ⟨v, root, needs.further reads produced⟩
  · rintro ⟨v, root, needs⟩
    have found : ∀ m, g.producer? v = some m → m ∈ g.liveNodes roots := fun m => sound.root_producer root
    clear root
    induction needs with
    | producer produced => exact found _ produced
    | operand produced reads _ ih =>
      exact ih fun m => sound.live_producer (found _ produced) reads

/-! ## Marks -/

/-- Marks that are right so far, and miss only what the variables on the stack lead to. -/
structure Marking (g : Graph) (roots : List VarId) (marks : Array Bool) (stack : List VarId) : Prop where
  size : marks.size = g.nodes.size
  wanted : ∀ v ∈ stack, v ∈ roots ∨ ∃ m ∈ g.liveNodes roots, v ∈ m.inputs
  live : ∀ n ∈ g.nodes.toList, marks[n.id]? = some true → n ∈ g.liveNodes roots
  followed : ∀ v, (v ∈ roots ∨ ∃ m ∈ g.nodes.toList, marks[m.id]? = some true ∧ v ∈ m.inputs) →
    v ∈ stack ∨ ∀ n, g.producer? v = some n → marks[n.id]? = some true

namespace Marking

variable {marks : Array Bool} {stack : List VarId} {v : VarId}

theorem start (g : Graph) (roots : List VarId) :
    Marking g roots (.replicate g.nodes.size false) roots.reverse := by
  have without : ∀ i : Nat, (Array.replicate g.nodes.size false)[i]? ≠ some true := by
    simp [Array.getElem?_replicate]
  refine ⟨Array.size_replicate, fun v member => .inl (List.mem_reverse.mp member), ?_, ?_⟩
  · exact fun n _ marked => absurd marked (without _)
  · rintro v (root | ⟨m, -, marked, -⟩)
    · exact .inl (List.mem_reverse.mpr root)
    · exact absurd marked (without _)

/-- A variable is left out whose producer is marked already, or which has none. -/
theorem skip (marking : Marking g roots marks (v :: stack))
    (done : ∀ n, g.producer? v = some n → marks[n.id]? = some true) : Marking g roots marks stack where
  size := marking.size
  wanted u member := marking.wanted u (List.mem_cons_of_mem v member)
  live := marking.live
  followed u reached := by
    rcases marking.followed u reached with member | marked
    · rcases List.mem_cons.mp member with rfl | later
      · exact .inr done
      · exact .inl later
    · exact .inr marked

/-- The producer of a wanted variable gets its mark, and its operands go on the stack. -/
theorem visit (sound : g.Sound d) (marking : Marking g roots marks (v :: stack)) {n : Node}
    (produced : g.producer? v = some n) :
    Marking g roots (marks.setIfInBounds n.id true) (n.inputs.reverse ++ stack) := by
  have inRange : n.id < marks.size := by
    rw [marking.size]
    exact (Array.getElem?_eq_some_iff.mp (sound.of_producer? produced).1).1
  have liveN : n ∈ g.liveNodes roots := by
    rcases marking.wanted v List.mem_cons_self with root | ⟨m, live, reads⟩
    · exact sound.root_producer root produced
    · exact sound.live_producer live reads produced
  have marked_iff : ∀ i, (marks.setIfInBounds n.id true)[i]? = some true ↔ i = n.id ∨ marks[i]? = some true := by
    intro i
    by_cases same : i = n.id
    · simp [same, inRange]
    · simp [same, Ne.symm same]
  have known : ∀ m ∈ g.nodes.toList, m.id = n.id → m = n := fun m member same =>
    Option.some.inj ((sound.mem_nodes member).symm.trans (same ▸ sound.live_mem liveN))
  refine ⟨by simp [marking.size], ?_, ?_, ?_⟩
  · intro u member
    rcases List.mem_append.mp member with operand | old
    · exact .inr ⟨n, liveN, List.mem_reverse.mp operand⟩
    · exact marking.wanted u (List.mem_cons_of_mem v old)
  · intro m member marked
    rcases (marked_iff _).mp marked with same | old
    · exact known m member same ▸ liveN
    · exact marking.live m member old
  · intro u reached
    have before : u ∈ n.inputs ∨ u ∈ v :: stack ∨ ∀ m, g.producer? u = some m → marks[m.id]? = some true := by
      rcases reached with root | ⟨m, member, marked, reads⟩
      · exact .inr (marking.followed u (.inl root))
      · rcases (marked_iff _).mp marked with same | old
        · exact .inl (known m member same ▸ reads)
        · exact .inr (marking.followed u (.inr ⟨m, member, old, reads⟩))
    rcases before with operand | head | marked
    · exact .inl (List.mem_append_left _ (List.mem_reverse.mpr operand))
    · rcases List.mem_cons.mp head with rfl | old
      · refine .inr fun m producedM => (marked_iff _).mpr (.inl ?_)
        rw [Option.some.inj (producedM.symm.trans produced)]
      · exact .inl (List.mem_append_right _ old)
    · exact .inr fun m producedM => (marked_iff _).mpr (.inr (marked m producedM))

/-- Marking ends, without a crash. -/
theorem run (sound : g.Sound d) (marking : Marking g roots marks stack) :
    ∃ marks', g.mark marks stack = .ok marks' ∧ Marking g roots marks' [] := by
  induction marks, stack using mark.induct g with
  | case1 marks => exact ⟨marks, by rw [mark], marking⟩
  | case2 marks v stack none ih =>
    rw [mark, none]
    exact ih (marking.skip (by simp [none]))
  | case3 marks v stack n produced unmarked ih =>
    rw [mark, produced]
    simp only [unmarked, ↓reduceDIte]
    exact ih (marking.visit sound produced)
  | case4 marks v stack n produced _ marked ih =>
    rw [mark, produced]
    simp only [marked, Option.some.injEq, Bool.true_eq_false, ↓reduceDIte, ↓reduceIte]
    refine ih (marking.skip fun m producedM => ?_)
    rw [Option.some.inj (producedM.symm.trans produced)]
    exact marked
  | case5 marks v stack n produced unmarked notMarked =>
    have inRange : n.id < marks.size := by
      rw [marking.size]
      exact (Array.getElem?_eq_some_iff.mp (sound.of_producer? produced).1).1
    rw [Array.getElem?_eq_getElem inRange] at unmarked notMarked
    cases mark_eq : marks[n.id] with
    | true => exact absurd (congrArg some mark_eq) notMarked
    | false => exact absurd (congrArg some mark_eq) unmarked

/-- With nothing left to follow, exactly the live operations are marked. -/
theorem marked_iff (sound : g.Sound d) (marking : Marking g roots marks []) {n : Node} (member : n ∈ g.nodes.toList) :
    marks[n.id]? = some true ↔ n ∈ g.liveNodes roots := by
  refine ⟨marking.live n member, sound.live_induction (motive := fun n => marks[n.id]? = some true) ?_⟩
  intro n live later
  have reached : n.output ∈ roots ∨ ∃ m ∈ g.nodes.toList, marks[m.id]? = some true ∧ n.output ∈ m.inputs := by
    obtain ⟨-, root | ⟨m, liveM, reads⟩⟩ := sound.mem_live.mp live
    · exact .inl root
    · have less := (sound.node (sound.live_mem liveM)).reads _ reads
      exact .inr ⟨m, (sound.mem_live.mp liveM).1, later m liveM less, reads⟩
  exact (marking.followed _ reached).resolve_left List.not_mem_nil n (sound.producer?_output (sound.live_mem live))

end Marking

end Graph

end TensorGraph
