import Mathlib.Data.List.Sort
import TensorGraph.Proofs.Graph.Needs
import TensorGraph.Proofs.Pass.Arising

/-! Counting lists the operations in the order of their creation. A count is the number of producers that are still to
come, and the earliest operation that is left is always ready: so nothing is counted below zero, and nothing is left
over. -/
namespace TensorGraph

open Checked

namespace Graph

variable {g : Graph} {d : Discipline} {roots : List VarId} {sets : SetOrder}

/-! ## Tables -/

theorem mem_producers {n : Node} {p : NodeId} :
    p ∈ g.producers n ↔ ∃ v ∈ n.inputs, ∃ m, g.producer? v = some m ∧ m.id = p := by
  simp only [producers, List.mem_filterMap, Option.map_eq_some_iff]

theorem adjust_eq {α : Type} {xs : Array α} {i : Nat} (inRange : i < xs.size) (f : α → α) :
    ∃ ys, adjust xs i f = .ok ys ∧ ys.size = xs.size ∧
      ∀ j : Nat, ys[j]? = if j = i then xs[j]?.map f else xs[j]? := by
  refine ⟨xs.setIfInBounds i (f xs[i]), by simp [adjust, inRange], Array.size_setIfInBounds, fun j => ?_⟩
  by_cases same : j = i
  · simp [same, inRange]
  · simp [same, Ne.symm same]

/-- An operation is added to what waits for each of its producers. -/
theorem foldlM_adjust {n : NodeId} {ps : List NodeId} {readers : Array (List NodeId)} (nodup : ps.Nodup)
    (inRange : ∀ p ∈ ps, p < readers.size) :
    ∃ readers', ps.foldlM (fun readers p => adjust readers p (· ++ [n])) readers = .ok readers' ∧
      readers'.size = readers.size ∧
      ∀ i : Nat, readers'[i]? = readers[i]?.map (· ++ if i ∈ ps then [n] else []) := by
  induction ps generalizing readers with
  | nil => exact ⟨readers, rfl, rfl, by simp⟩
  | cons p ps ih =>
    obtain ⟨fresh, nodup⟩ := List.nodup_cons.mp nodup
    obtain ⟨first, adjusted, size, entries⟩ := adjust_eq (inRange p List.mem_cons_self) (· ++ [n])
    have inRangeRest : ∀ q ∈ ps, q < first.size := fun q member => by
      rw [size]
      exact inRange q (List.mem_cons_of_mem p member)
    obtain ⟨readers', ran, size', entries'⟩ := ih nodup inRangeRest
    refine ⟨readers', ?_, size'.trans size, fun i => ?_⟩
    · rw [List.foldlM_cons, adjusted, ok_bind, ran]
    · rw [entries', entries]
      by_cases same : i = p
      · simp [same, fresh, Function.comp_def]
      · simp [same]

/-- The operations among `ns` that read what operation `p` computes. -/
def readers (g : Graph) (ns : List Node) (p : NodeId) : List NodeId :=
  (ns.filter fun n => p ∈ g.producers n).map Node.id

theorem mem_readers {ns : List Node} {p i : NodeId} :
    i ∈ g.readers ns p ↔ ∃ n ∈ ns, p ∈ g.producers n ∧ n.id = i := by
  simp only [readers, List.mem_map, List.mem_filter, decide_eq_true_eq, and_assoc]

theorem readers_snoc {ns : List Node} {n : Node} {p : NodeId} :
    g.readers (ns ++ [n]) p = g.readers ns p ++ if p ∈ g.producers n then [n.id] else [] := by
  rw [readers, List.filter_append, List.map_append]
  by_cases reads : p ∈ g.producers n
  · simp [readers, reads]
  · simp [readers, reads]

/-- The tables say what each of the operations `ns` waits for. -/
structure Waiting.Lists (w : Waiting) (g : Graph) (sets : SetOrder) (ns : List Node) : Prop where
  leftSize : w.left.size = g.nodes.size
  readersSize : w.readers.size = g.nodes.size
  left : ∀ n ∈ ns, w.left[n.id]? = some (sets.list n.id (g.producers n)).length
  readers : ∀ i < g.nodes.size, w.readers[i]? = some (g.readers ns i)

theorem Waiting.Lists.enter {w : Waiting} {before : List Node} (lists : w.Lists g sets before) (sound : g.Sound d)
    {n : Node} (at_ : g.nodes[n.id]? = some n) (fresh : ∀ m ∈ before, m.id ≠ n.id) :
    ∃ w', w.enter n.id (sets.list n.id (g.producers n)) = .ok w' ∧ w'.Lists g sets (before ++ [n]) := by
  have inNodes := (Array.getElem?_eq_some_iff.mp at_).1
  have producersInRange : ∀ p ∈ sets.list n.id (g.producers n), p < w.readers.size := by
    intro p member
    obtain ⟨v, -, m, produced, rfl⟩ := mem_producers.mp (sets.mem.mp member)
    rw [lists.readersSize]
    exact (Array.getElem?_eq_some_iff.mp (sound.of_producer? produced).1).1
  obtain ⟨left, counted, leftSize, counts⟩ := adjust_eq (lists.leftSize ▸ inNodes)
    fun _ => (sets.list n.id (g.producers n)).length
  obtain ⟨readers, noted, readersSize, entries⟩ := foldlM_adjust (n := n.id) (sets.nodup _ _) producersInRange
  refine ⟨⟨left, readers⟩, ?_, leftSize.trans lists.leftSize, readersSize.trans lists.readersSize, ?_, ?_⟩
  · simp only [Waiting.enter, counted, noted, ok_bind]
    rfl
  · intro m member
    rw [counts]
    rcases List.mem_append.mp member with old | new
    · rw [if_neg (fresh m old)]
      exact lists.left m old
    · obtain rfl := List.mem_singleton.mp new
      rw [if_pos rfl, Array.getElem?_eq_getElem (lists.leftSize ▸ inNodes)]
      rfl
  · intro i inRange
    rw [entries, lists.readers i inRange, Option.map_some, readers_snoc]
    simp only [sets.mem]

theorem Waiting.Lists.enter_all {w : Waiting} {before after : List Node} (lists : w.Lists g sets before)
    (sound : g.Sound d) (nodes : ∀ n ∈ after, g.nodes[n.id]? = some n)
    (distinct : ((before ++ after).map Node.id).Nodup) :
    ∃ w', after.foldlM (fun w n => w.enter n.id (sets.list n.id (g.producers n))) w = .ok w' ∧
      w'.Lists g sets (before ++ after) := by
  induction after generalizing before w with
  | nil => exact ⟨w, rfl, by rwa [List.append_nil]⟩
  | cons n after ih =>
    have fresh : ∀ m ∈ before, m.id ≠ n.id := by
      rw [List.map_append, List.map_cons] at distinct
      exact fun m member =>
        (List.nodup_append.mp distinct).2.2 _ (List.mem_map_of_mem member) _ List.mem_cons_self
    obtain ⟨first, entered, listsFirst⟩ := lists.enter sound (nodes n List.mem_cons_self) fresh
    have split : before ++ n :: after = before ++ [n] ++ after := by simp
    have nodesRest := fun m member => nodes m (List.mem_cons_of_mem n member)
    obtain ⟨w', ran, lists'⟩ := ih listsFirst nodesRest (split ▸ distinct)
    refine ⟨w', ?_, split ▸ lists'⟩
    rw [List.foldlM_cons, entered, ok_bind, ran]

theorem waiting_eq (sets : SetOrder) (sound : g.Sound d) {ns : List Node} (nodes : ∀ n ∈ ns, g.nodes[n.id]? = some n)
    (distinct : (ns.map Node.id).Nodup) : ∃ w, g.waiting sets ns = .ok w ∧ w.Lists g sets ns := by
  have nothing : Waiting.Lists
      { left := .replicate g.nodes.size 0, readers := .replicate g.nodes.size [] } g sets [] := by
    refine ⟨Array.size_replicate, Array.size_replicate, by simp, fun i inRange => ?_⟩
    simp [inRange, readers]
  exact nothing.enter_all sound nodes distinct

/-- What a release does: one less to wait for, and those that wait for nothing are ready. -/
structure Released (left : Array Nat) (ready ns : List NodeId) (left' : Array Nat) (ready' : List NodeId) : Prop where
  counts : ∀ i : Nat, left'[i]? = if i ∈ ns then left[i]?.map (· - 1) else left[i]?
  mem : ∀ i, i ∈ ready' ↔ i ∈ ready ∨ i ∈ ns ∧ left[i]? = some 1
  nodup : ready.Nodup → (∀ n ∈ ns, n ∉ ready) → ready'.Nodup

theorem release_eq {left : Array Nat} (ready : List NodeId) {ns : List NodeId} (nodup : ns.Nodup)
    (waits : ∀ n ∈ ns, ∃ count, left[n]? = some (count + 1)) :
    ∃ left' ready', release left ready ns = .ok (left', ready') ∧ Released left ready ns left' ready' := by
  induction ns generalizing left ready with
  | nil => exact ⟨left, ready, rfl, by simp, by simp, fun unique _ => unique⟩
  | cons n ns ih =>
    obtain ⟨fresh, nodup⟩ := List.nodup_cons.mp nodup
    obtain ⟨count, at_⟩ := waits n List.mem_cons_self
    have inRange := (Array.getElem?_eq_some_iff.mp at_).1
    have others : ∀ i : Nat, i ≠ n → (left.setIfInBounds n count)[i]? = left[i]? := fun i other => by
      simp [Ne.symm other]
    have other : ∀ m ∈ ns, m ≠ n := fun m member same => fresh (same ▸ member)
    have waitsRest : ∀ m ∈ ns, ∃ k, (left.setIfInBounds n count)[m]? = some (k + 1) := fun m member => by
      rw [others m (other m member)]
      exact waits m (List.mem_cons_of_mem n member)
    obtain ⟨left', ready', ran, released⟩ := ih (if count = 0 then n :: ready else ready) nodup waitsRest
    refine ⟨left', ready', ?_, fun i => ?_, fun i => ?_, fun unique apart => ?_⟩
    · rw [release, at_]
      exact ran
    · rw [released.counts]
      by_cases same : i = n
      · subst same
        rw [if_neg fresh, if_pos List.mem_cons_self, at_]
        simp [inRange]
      · simp [same, others i same]
    · rw [released.mem]
      by_cases same : i = n
      · subst same
        by_cases last : count = 0
        · simp [fresh, at_, last]
        · simp [fresh, at_, last]
      · rw [others i same]
        by_cases last : count = 0
        · simp [last, same]
        · simp [last, same]
    · refine released.nodup ?_ fun m member => ?_
      · split
        · exact List.nodup_cons.mpr ⟨apart n List.mem_cons_self, unique⟩
        · exact unique
      · have apartM := apart m (List.mem_cons_of_mem n member)
        split
        · simp [other m member, apartM]
        · exact apartM

/-! ## The order -/

/-- How many producers of an operation are not among the operations `before`. -/
def SetOrder.pending (sets : SetOrder) (g : Graph) (before : List Node) (n : Node) : Nat :=
  (sets.list n.id (g.producers n)).countP fun p => p ∉ before.map Node.id

theorem SetOrder.pending_eq_zero {before : List Node} {n : Node} :
    sets.pending g before n = 0 ↔ ∀ p ∈ g.producers n, p ∈ before.map Node.id := by
  simp [pending, List.countP_eq_zero, sets.mem]

/-- In a list without repetition, one that is done counts once. -/
theorem countP_notMem_append {ps done : List NodeId} {n : NodeId} (nodup : ps.Nodup) (fresh : n ∉ done) :
    (ps.countP fun p => p ∉ done) = (ps.countP fun p => p ∉ done ++ [n]) + if n ∈ ps then 1 else 0 := by
  induction ps with
  | nil => rfl
  | cons p ps ih =>
    obtain ⟨distinct, nodup⟩ := List.nodup_cons.mp nodup
    rw [List.countP_cons, List.countP_cons, ih nodup]
    by_cases same : n = p
    · subst same
      simp [fresh, distinct]
    · have other : p ≠ n := Ne.symm same
      simp only [List.mem_append, List.mem_cons, List.not_mem_nil, or_false, other, same, false_or]
      omega

/-- An operation that runs is one less to wait for. -/
theorem SetOrder.pending_snoc {before : List Node} {n m : Node} (fresh : n.id ∉ before.map Node.id) :
    sets.pending g before m = sets.pending g (before ++ [n]) m + if n.id ∈ g.producers m then 1 else 0 := by
  simp only [pending, List.map_append, List.map_cons, List.map_nil]
  rw [countP_notMem_append (sets.nodup _ _) fresh]
  simp only [sets.mem]

/-- Operations in the order of their creation, each after those that compute its operands. -/
structure Sequence (g : Graph) (ns : List Node) : Prop where
  sorted : ns.Pairwise fun m n => m.id < n.id
  producers : ∀ {before after : List Node} {n : Node}, ns = before ++ n :: after →
    ∀ p ∈ g.producers n, p ∈ before.map Node.id

theorem Sound.live_sequence (sound : g.Sound d) : g.Sequence (g.liveNodes roots) where
  sorted := by
    refine List.Pairwise.imp_of_mem ?_ sound.live_sorted
    intro m n liveM liveN before
    rcases Nat.lt_trichotomy m.id n.id with less | same | more
    · exact less
    · have atM := sound.live_mem liveM
      rw [same, sound.live_mem liveN] at atM
      cases atM
      exact absurd before (Nat.lt_irrefl _)
    · exact absurd before (Nat.lt_asymm (sound.ordered (sound.live_mem liveN) (sound.live_mem liveM) more))
  producers split p member := by
    obtain ⟨v, reads, m, produced, rfl⟩ := mem_producers.mp member
    exact List.mem_map_of_mem (sound.live_before split reads produced)

namespace Sequence

variable {ns before after : List Node} {m n : Node}

theorem nodup (sequence : g.Sequence ns) : (ns.map Node.id).Nodup :=
  List.pairwise_map.mpr (sequence.sorted.imp Nat.ne_of_lt)

theorem eq_of_id (sequence : g.Sequence ns) (memberM : m ∈ ns) (memberN : n ∈ ns) (same : m.id = n.id) : m = n :=
  List.inj_on_of_nodup_map sequence.nodup memberM memberN same

theorem earlier (sequence : g.Sequence (before ++ n :: after)) : ∀ m ∈ before, m.id < n.id :=
  fun m member => (List.pairwise_append.mp sequence.sorted).2.2 m member n List.mem_cons_self

theorem later (sequence : g.Sequence (before ++ n :: after)) : ∀ m ∈ after, n.id < m.id :=
  (List.pairwise_cons.mp (List.pairwise_append.mp sequence.sorted).2.1).1

theorem fresh (sequence : g.Sequence (before ++ n :: after)) : n.id ∉ before.map Node.id := by
  intro member
  obtain ⟨m, memberM, same⟩ := List.mem_map.mp member
  exact Nat.ne_of_lt (sequence.earlier m memberM) same

theorem id_mem_readers (sequence : g.Sequence ns) (member : n ∈ ns) {p : NodeId} :
    n.id ∈ g.readers ns p ↔ p ∈ g.producers n := by
  refine ⟨fun reader => ?_, fun reads => mem_readers.mpr ⟨n, member, reads, rfl⟩⟩
  obtain ⟨m, memberM, reads, same⟩ := mem_readers.mp reader
  rwa [← sequence.eq_of_id memberM member same]

/-- What reads the output of an operation comes after it. -/
theorem reader_after (sequence : g.Sequence (before ++ n :: after)) (member : m ∈ before ++ n :: after)
    (reads : n.id ∈ g.producers m) : m ∈ after := by
  obtain ⟨first, rest, split⟩ := List.append_of_mem member
  obtain ⟨k, memberK, same⟩ := List.mem_map.mp (sequence.producers split n.id reads)
  have less : n.id < m.id := by
    rw [split] at sequence
    exact same ▸ sequence.earlier k memberK
  rcases List.mem_append.mp member with inBefore | inRest
  · exact absurd less (Nat.lt_asymm (sequence.earlier m inBefore))
  · rcases List.mem_cons.mp inRest with rfl | inAfter
    · exact absurd less (Nat.lt_irrefl _)
    · exact inAfter

end Sequence

/-- The operations `before` have run: the counts are those of the producers still to come, and ready is what waits for
none. -/
structure Draining (g : Graph) (sets : SetOrder) (before after : List Node) (left : Array Nat)
    (ready : List NodeId) : Prop where
  counts : ∀ n ∈ before ++ after, left[n.id]? = some (sets.pending g before n)
  mem : ∀ i, i ∈ ready ↔ ∃ n ∈ after, n.id = i ∧ sets.pending g before n = 0
  nodup : ready.Nodup

namespace Draining

variable {before after : List Node} {n : Node} {left left' : Array Nat} {ready ready' : List NodeId}

/-- The first operation that is left is the earliest that is ready. -/
theorem least (draining : Draining g sets before (n :: after) left ready)
    (sequence : g.Sequence (before ++ n :: after)) : ready.min? = some n.id := by
  refine List.min?_eq_some_iff.mpr ⟨(draining.mem _).mpr ⟨n, List.mem_cons_self, rfl, ?_⟩, fun i member => ?_⟩
  · exact SetOrder.pending_eq_zero.mpr (sequence.producers rfl)
  · obtain ⟨m, memberM, rfl, -⟩ := (draining.mem i).mp member
    rcases List.mem_cons.mp memberM with rfl | inAfter
    · exact Nat.le_refl _
    · exact Nat.le_of_lt (sequence.later m inAfter)

/-- What waits for the first operation that is left waits for at least one. -/
theorem waits (draining : Draining g sets before (n :: after) left ready)
    (sequence : g.Sequence (before ++ n :: after)) :
    ∀ i ∈ g.readers (before ++ n :: after) n.id, ∃ count, left[i]? = some (count + 1) := by
  intro i member
  obtain ⟨m, inAll, reads, rfl⟩ := mem_readers.mp member
  refine ⟨sets.pending g (before ++ [n]) m, ?_⟩
  rw [draining.counts m inAll, SetOrder.pending_snoc sequence.fresh, if_pos reads]

/-- Running the first operation that is left keeps the counts right. -/
theorem step (draining : Draining g sets before (n :: after) left ready) (sequence : g.Sequence (before ++ n :: after))
    (released : Released left (ready.erase n.id) (g.readers (before ++ n :: after) n.id) left' ready') :
    Draining g sets (before ++ [n]) after left' ready' := by
  have pending : ∀ m, sets.pending g before m =
      sets.pending g (before ++ [n]) m + if n.id ∈ g.producers m then 1 else 0 :=
    fun m => SetOrder.pending_snoc sequence.fresh
  have ofAfter : ∀ m ∈ after, m ∈ before ++ n :: after := fun m member =>
    List.mem_append_right _ (List.mem_cons_of_mem n member)
  refine ⟨fun m member => ?_, fun i => ?_, ?_⟩
  · have inAll : m ∈ before ++ n :: after := by simpa using member
    rw [released.counts, draining.counts m inAll, pending m]
    simp only [sequence.id_mem_readers inAll]
    split <;> simp
  · rw [released.mem, draining.nodup.mem_erase_iff]
    constructor
    · rintro (⟨other, old⟩ | ⟨reader, one⟩)
      · obtain ⟨m, member, rfl, none⟩ := (draining.mem i).mp old
        have inAfter : m ∈ after := (List.mem_cons.mp member).resolve_left fun same => other (congrArg Node.id same)
        rw [pending m] at none
        exact ⟨m, inAfter, rfl, (Nat.add_eq_zero_iff.mp none).1⟩
      · -- it waited for this operation only, and what reads an operation comes after it
        obtain ⟨m, inAll, reads, rfl⟩ := mem_readers.mp reader
        rw [draining.counts m inAll, pending m, if_pos reads] at one
        exact ⟨m, sequence.reader_after inAll reads, rfl, Nat.succ.inj (Option.some.inj one)⟩
    · rintro ⟨m, inAfter, rfl, none⟩
      have count := draining.counts m (ofAfter m inAfter)
      rw [pending m, none, Nat.zero_add] at count
      by_cases reads : n.id ∈ g.producers m
      · rw [if_pos reads] at count
        exact .inr ⟨mem_readers.mpr ⟨m, ofAfter m inAfter, reads, rfl⟩, count⟩
      · refine .inl ⟨Nat.ne_of_gt (sequence.later m inAfter), (draining.mem _).mpr ⟨m, ?_, rfl, ?_⟩⟩
        · exact List.mem_cons_of_mem n inAfter
        · rw [pending m, none, if_neg reads]
  · -- what is released waited for this operation until now, so it was not ready before
    refine released.nodup (draining.nodup.erase _) fun i reader ready => ?_
    obtain ⟨m, member, rfl, none⟩ := (draining.mem i).mp (List.mem_of_mem_erase ready)
    have inAll : m ∈ before ++ n :: after := List.mem_append_right _ member
    rw [pending m, if_pos ((sequence.id_mem_readers inAll).mp reader)] at none
    exact Nat.succ_ne_zero _ none

end Draining

@[simp] theorem drain_nil (readers : Array (List NodeId)) (left : Array Nat) : drain readers left [] = .ok [] := by
  rw [drain]
  rfl

theorem drain_of_release {readers : Array (List NodeId)} {left left' : Array Nat} {ready ready' ns : List NodeId}
    {n : NodeId} (least : ready.min? = some n) (waits : readers[n]? = some ns)
    (released : release left (ready.erase n) ns = .ok (left', ready')) :
    drain readers left ready = (n :: ·) <$> drain readers left' ready' := by
  rw [drain]
  split
  · rename_i none
    cases none.symm.trans least
  · rename_i m first
    cases first.symm.trans least
    simp only [waits]
    split
    · rename_i e failed
      cases failed.symm.trans released
    · rename_i ran
      cases ran.symm.trans released
      rfl

/-- What is left runs in order. -/
theorem drain_eq {w : Waiting} {before after : List Node} (lists : w.Lists g sets (before ++ after))
    (nodes : ∀ n ∈ after, n.id < g.nodes.size) (sequence : g.Sequence (before ++ after)) {left : Array Nat}
    {ready : List NodeId} (draining : Draining g sets before after left ready) :
    drain w.readers left ready = .ok (after.map Node.id) := by
  induction after generalizing before left ready with
  | nil =>
    have none : ready = [] := List.eq_nil_iff_forall_not_mem.mpr fun i member => by
      obtain ⟨n, inNil, -⟩ := (draining.mem i).mp member
      cases inNil
    rw [none, drain_nil]
    rfl
  | cons n after ih =>
    have waits := lists.readers n.id (nodes n List.mem_cons_self)
    have distinct : (g.readers (before ++ n :: after) n.id).Nodup :=
      sequence.nodup.sublist (List.filter_sublist.map Node.id)
    obtain ⟨left', ready', ran, released⟩ := release_eq (ready.erase n.id) distinct (draining.waits sequence)
    have split : before ++ n :: after = before ++ [n] ++ after := by simp
    have rest := ih (split ▸ lists) (fun m member => nodes m (List.mem_cons_of_mem n member)) (split ▸ sequence)
      (draining.step sequence released)
    rw [drain_of_release (draining.least sequence) waits ran, rest]
    rfl

theorem entry_eq_ok {α : Type} {xs : Array α} {i : Nat} {x : α} : entry xs i = .ok x ↔ xs[i]? = some x := by
  unfold entry
  split
  · rename_i found
    rw [found, Except.ok.injEq, Option.some.injEq]
  · rename_i none
    simp [none]

namespace Sound

/-- The operations that are marked are the live ones, in their order. -/
theorem marked_eq (sound : g.Sound d) {marks : Array Bool} (marking : Marking g roots marks []) :
    (g.nodes.toList.filter fun n => marks[n.id]? == some true) = g.liveNodes roots := by
  refine List.Pairwise.eq_of_mem_iff (r := fun a b : Node => a.output < b.output)
    (sound.nodes_sorted.sublist List.filter_sublist) sound.live_sorted fun n => ?_
  rw [List.mem_filter, beq_iff_eq]
  constructor
  · rintro ⟨member, marked⟩
    exact marking.live n member marked
  · intro live
    have member := (sound.mem_live.mp live).1
    exact ⟨member, (marking.marked_iff sound member).mpr live⟩

theorem count_marks (sound : g.Sound d) {marks : Array Bool} (marking : Marking g roots marks []) :
    marks.count true = (g.liveNodes roots).length := by
  have listed : marks.toList = g.nodes.toList.map fun n => marks[n.id]? == some true := by
    refine List.ext_getElem (by simp [marking.size]) fun i inMarks inNodes => ?_
    rw [List.length_map] at inNodes
    have id : (g.nodes.toList[i]).id = i := (sound.node (by simp)).id
    rw [List.getElem_map, id]
    simp [Array.getElem?_eq_getElem (by simpa using inMarks : i < marks.size)]
  rw [← sound.marked_eq marking, ← Array.count_toList, listed, List.count_eq_countP, List.countP_map,
    List.countP_eq_length_filter]
  simp [Function.comp_def]

/-- Counting gives the live operations in the order of their creation, however sets list their members. -/
theorem topologicalOrder_eq (sound : g.Sound d) (known : ∀ v ∈ roots, v < g.vars.size) (sets : SetOrder) :
    g.topologicalOrder sets roots = .ok ((g.liveNodes roots).map Node.id) := by
  have found := roots_found known
  obtain ⟨marks, marked, marking⟩ := (Marking.start g roots).run sound
  have inNodes : ∀ n ∈ g.nodes.toList, n.id < g.nodes.size := fun n member =>
    (Array.getElem?_eq_some_iff.mp (sound.mem_nodes member)).1
  have live : g.nodes.toList.filterM (fun n => entry marks n.id) = .ok (g.liveNodes roots) := by
    rw [← sound.marked_eq marking]
    refine filterM_of_ok fun n member => entry_eq_ok.mpr ?_
    have inRange : n.id < marks.size := marking.size ▸ inNodes n member
    rw [Array.getElem?_eq_getElem inRange]
    simp
  have sequence : g.Sequence (g.liveNodes roots) := sound.live_sequence
  obtain ⟨w, counted, lists⟩ := waiting_eq sets sound (fun n live => sound.live_mem live) sequence.nodup
  have counts : ∀ n ∈ g.liveNodes roots, w.left[n.id]? = some (sets.pending g [] n) := fun n member => by
    simp [lists.left n member, SetOrder.pending]
  have first : (g.liveNodes roots).filterM (fun n => (· == 0) <$> entry w.left n.id) =
      .ok ((g.liveNodes roots).filter fun n => sets.pending g [] n == 0) := by
    refine filterM_of_ok fun n member => ?_
    rw [entry_eq_ok.mpr (counts n member)]
    rfl
  have draining : Draining g sets [] (g.liveNodes roots) w.left
      (((g.liveNodes roots).filter fun n => sets.pending g [] n == 0).map Node.id) := by
    refine ⟨counts, fun i => ?_, sequence.nodup.sublist (List.filter_sublist.map Node.id)⟩
    simp only [List.mem_map, List.mem_filter, beq_iff_eq]
    exact exists_congr fun n => by rw [and_assoc, and_comm (a := n.id = i)]
  have drained : drain w.readers w.left _ = .ok ((g.liveNodes roots).map Node.id) :=
    drain_eq lists (fun n live => inNodes n (sound.mem_live.mp live).1) sequence draining
  simp only [topologicalOrder, found, marked, live, counted, first, drained, ok_bind]
  simp [sound.count_marks marking]

end Sound

/-- On every graph that a caller can have, and however sets list their members, counting lists the operations that some
of the variables need, each once and in the order of their creation, hence each after those that compute its operands.
It is the order in which programs run. -/
theorem Arises.needed_by_creation {g : Graph} (arises : g.Arises) {roots : List VarId}
    (known : ∀ v ∈ roots, v < g.vars.size) (sets : SetOrder) :
    ∃ ns, g.topologicalOrder sets roots = .ok (ns.map Node.id) ∧ g.order roots = .ok ns ∧
      (∀ n ∈ ns, g.nodes[n.id]? = some n) ∧ (∀ n, n ∈ ns ↔ ∃ v ∈ roots, g.Needs v n) ∧
      (ns.map Node.id).Pairwise (· < ·) ∧
      ∀ before n after, ns = before ++ n :: after → ∀ v ∈ n.inputs, ∀ m, g.producer? v = some m → m ∈ before := by
  have sound := arises.sound True
  have sequence : g.Sequence (g.liveNodes roots) := sound.live_sequence
  exact ⟨g.liveNodes roots, sound.topologicalOrder_eq known sets, sound.order_eq known, fun n => sound.live_mem,
    fun n => sound.mem_live_iff_needs, List.pairwise_map.mpr sequence.sorted,
    fun before n after split v reads m => sound.live_before split reads⟩

/-- The square of a sum, with an operation between that nothing needs. -/
def squaredSum : Graph :=
  let x := ((Graph.empty .f32).input { kind := .f32, rank := 1 } none).1
  let apart := (((x.apply (.unary .exp) [0]).1.apply (.unary .sqrt) [0]).1.apply (.unary .neg) [0]).1
  ((apart.apply (.binary .add) [3, 1]).1.apply (.binary .mul) [4, 4]).1

theorem built_squaredSum : squaredSum.Built :=
  .apply (.apply (.apply (.apply (.apply (.input (.empty _) _ _) _ _) _ _) _ _) _ _) _ _

theorem needed_by_creation_squaredSum : (∀ v ∈ [5], v < squaredSum.vars.size) ∧
    squaredSum.topologicalOrder .distinct [5] = .ok [0, 2, 3, 4] := by
  have known : ∀ v ∈ [5], v < squaredSum.vars.size := by decide +kernel
  obtain ⟨ns, counted, ordered, -⟩ := built_squaredSum.arises.needed_by_creation known .distinct
  have ids : ((squaredSum.order [5]).map (·.map Node.id)).toOption = some [0, 2, 3, 4] := by decide +kernel
  rw [ordered] at ids
  exact ⟨known, counted.trans (congrArg _ (Option.some.inj ids))⟩

end Graph

end TensorGraph
