import TensorGraph.Graph.Order
import TensorGraph.Proofs.Graph.Sound

/-! The operations that some variables need. Each of them computes one of the variables or an operand
of a later one, all producers of its operands are among them, and the order in which they run is
that of their creation. -/
namespace TensorGraph

open Checked

namespace Graph

theorem roots_found {g : Graph} {roots : List VarId} (known : ∀ v ∈ roots, v < g.vars.size) :
    roots.forM (fun v => discard (g.var v)) = .ok () := by
  refine forM_eq_ok.mpr fun v member => ?_
  obtain ⟨x, atV⟩ : ∃ x, g.var v = .ok x := ⟨_, var_eq_ok.mpr (Array.getElem?_eq_getElem (known v member))⟩
  simp [discard, Functor.discard, atV, Functor.mapConst, Except.map]

/-- Operations none of which reads its own output or that of a later one. -/
def Forward (ns : List Node) : Prop :=
  ns.Pairwise (fun a b => b.output ∉ a.inputs) ∧ ∀ a ∈ ns, a.output ∉ a.inputs

theorem mem_needed_vars {roots : List VarId} {ns : List Node} {v : VarId} :
    v ∈ (needed roots ns).2 ↔ v ∈ roots ∨ ∃ n ∈ (needed roots ns).1, v ∈ n.inputs := by
  induction ns with
  | nil => simp [needed]
  | cons a ns ih =>
    simp only [needed]
    split
    · simp only [List.mem_append, ih, List.exists_mem_cons_iff]
      exact or_left_comm
    · exact ih

theorem needed_sublist (roots : List VarId) (ns : List Node) :
    (needed roots ns).1.Sublist ns := by
  induction ns with
  | nil => exact .slnil
  | cons a ns ih =>
    simp only [needed]
    split
    · exact ih.cons_cons a
    · exact ih.cons a

theorem mem_needed {roots : List VarId} {ns : List Node} (forward : Forward ns) {n : Node} :
    n ∈ (needed roots ns).1 ↔ n ∈ ns ∧ n.output ∈ (needed roots ns).2 := by
  induction ns with
  | nil => simp [needed]
  | cons a ns ih =>
    obtain ⟨later, pairs⟩ := List.pairwise_cons.mp forward.1
    have rest := ih ⟨pairs, fun b member => forward.2 b (List.mem_cons_of_mem _ member)⟩
    simp only [needed]
    split
    · rename_i wanted
      simp only [List.mem_cons, List.mem_append, rest]
      constructor
      · rintro (rfl | ⟨member, output⟩)
        · exact ⟨.inl rfl, .inr (List.contains_iff_mem.mp wanted)⟩
        · exact ⟨.inr member, .inr output⟩
      · rintro ⟨rfl | member, output⟩
        · exact .inl rfl
        · exact .inr ⟨member, output.resolve_left (later n member)⟩
    · rename_i unwanted
      simp only [List.mem_cons, rest]
      constructor
      · rintro ⟨member, output⟩
        exact ⟨.inr member, output⟩
      · rintro ⟨rfl | member, output⟩
        · exact absurd (List.contains_iff_mem.mpr output) unwanted
        · exact ⟨member, output⟩

namespace Sound

variable {g : Graph} {d : Discipline} {roots : List VarId}

theorem mem_nodes (sound : g.Sound d) {n : Node} (member : n ∈ g.nodes.toList) :
    g.nodes[n.id]? = some n := by
  obtain ⟨i, inNodes, rfl⟩ := List.mem_iff_getElem.mp member
  have at_ : g.nodes[i]? = some g.nodes.toList[i] := by
    rw [← Array.getElem?_toList]
    exact List.getElem?_eq_getElem inNodes
  rw [(sound.node at_).id]
  exact at_

theorem nodes_sorted (sound : g.Sound d) :
    g.nodes.toList.Pairwise fun a b => a.output < b.output := by
  refine List.pairwise_iff_getElem.mpr fun i j inI inJ before => ?_
  refine sound.ordered (i := i) (j := j) ?_ ?_ before
  · rw [← Array.getElem?_toList]
    exact List.getElem?_eq_getElem inI
  · rw [← Array.getElem?_toList]
    exact List.getElem?_eq_getElem inJ

theorem forward (sound : g.Sound d) : Forward g.nodes.toList := by
  constructor
  · refine List.Pairwise.imp_of_mem ?_ sound.nodes_sorted
    intro a b inA _ before reads
    have less := (sound.node (sound.mem_nodes inA)).reads _ reads
    exact Nat.lt_asymm before less
  · intro a member reads
    exact Nat.lt_irrefl _ ((sound.node (sound.mem_nodes member)).reads _ reads)

theorem live_mem (sound : g.Sound d) {n : Node} (live : n ∈ g.liveNodes roots) :
    g.nodes[n.id]? = some n :=
  sound.mem_nodes ((needed_sublist _ _).subset live)

theorem mem_live (sound : g.Sound d) {n : Node} :
    n ∈ g.liveNodes roots ↔ n ∈ g.nodes.toList ∧
      (n.output ∈ roots ∨ ∃ m ∈ g.liveNodes roots, n.output ∈ m.inputs) := by
  rw [liveNodes, mem_needed sound.forward, mem_needed_vars]

theorem live_sorted (sound : g.Sound d) :
    (g.liveNodes roots).Pairwise fun a b => a.output < b.output :=
  sound.nodes_sorted.sublist (needed_sublist _ _)

theorem mem_toList {i : NodeId} {n : Node} (at_ : g.nodes[i]? = some n) : n ∈ g.nodes.toList := by
  rw [← Array.getElem?_toList] at at_
  exact List.mem_of_getElem? at_

/-- The producer of what a live operation reads is live. -/
theorem live_producer (sound : g.Sound d) {n m : Node} {v : VarId} (live : n ∈ g.liveNodes roots)
    (reads : v ∈ n.inputs) (produced : g.producer? v = some m) : m ∈ g.liveNodes roots := by
  obtain ⟨at_, rfl⟩ := sound.of_producer? produced
  exact sound.mem_live.mpr ⟨mem_toList at_, .inr ⟨n, live, reads⟩⟩

theorem root_producer (sound : g.Sound d) {m : Node} {v : VarId} (root : v ∈ roots)
    (produced : g.producer? v = some m) : m ∈ g.liveNodes roots := by
  obtain ⟨at_, rfl⟩ := sound.of_producer? produced
  exact sound.mem_live.mpr ⟨mem_toList at_, .inl root⟩

/-- The producer of what a live operation reads comes before it. -/
theorem live_before (sound : g.Sound d) {before after : List Node} {n m : Node} {v : VarId}
    (split : g.liveNodes roots = before ++ n :: after) (reads : v ∈ n.inputs)
    (produced : g.producer? v = some m) : m ∈ before := by
  have inLive : n ∈ g.liveNodes roots := by
    rw [split]
    simp
  have live := sound.live_producer inLive reads produced
  obtain ⟨-, rfl⟩ := sound.of_producer? produced
  have less := (sound.node (sound.live_mem inLive)).reads _ reads
  have sorted : (g.liveNodes roots).Pairwise fun a b => a.output < b.output := sound.live_sorted
  rw [split] at live sorted
  rcases List.mem_append.mp live with here | there
  · exact here
  · have ahead := (List.pairwise_cons.mp (List.pairwise_append.mp sorted).2.1).1
    rcases List.mem_cons.mp there with rfl | later
    · exact absurd less (Nat.lt_irrefl _)
    · exact absurd (ahead m later) (Nat.lt_asymm less)

/-- Live operations that come earlier have earlier outputs. -/
theorem live_earlier (sound : g.Sound d) {before after : List Node} {n : Node}
    (split : g.liveNodes roots = before ++ n :: after) : ∀ m ∈ before, m.output < n.output := by
  have sorted : (g.liveNodes roots).Pairwise fun a b => a.output < b.output := sound.live_sorted
  rw [split] at sorted
  exact fun m member => (List.pairwise_append.mp sorted).2.2 m member n (by simp)

/-- The output of a live operation is wanted in the end or read by a later one. -/
theorem live_wanted (sound : g.Sound d) {before after : List Node} {n : Node}
    (split : g.liveNodes roots = before ++ n :: after) :
    n.output ∈ roots ∨ ∃ m ∈ after, n.output ∈ m.inputs := by
  have inLive : n ∈ g.liveNodes roots := by
    rw [split]
    simp
  rcases (sound.mem_live.mp inLive).2 with root | ⟨m, live, reads⟩
  · exact .inl root
  · refine .inr ⟨m, ?_, reads⟩
    have less := (sound.node (sound.live_mem live)).reads _ reads
    rw [split] at live
    rcases List.mem_append.mp live with here | there
    · exact absurd (sound.live_earlier split m here) (Nat.lt_asymm less)
    · rcases List.mem_cons.mp there with rfl | later
      · exact absurd less (Nat.lt_irrefl _)
      · exact later

/-- A fact about live operations that passes from later ones to earlier ones. -/
theorem live_induction (sound : g.Sound d) {motive : Node → Prop} (step : ∀ n ∈ g.liveNodes roots,
    (∀ k ∈ g.liveNodes roots, n.output < k.output → motive k) → motive n) {n : Node}
    (live : n ∈ g.liveNodes roots) : motive n := by
  induction left_eq : g.vars.size - n.output using Nat.strong_induction_on generalizing n with
  | _ left ih =>
    refine step n live fun k liveK later => ih _ ?_ liveK rfl
    have inRange := sound.output_lt (sound.live_mem liveK)
    rw [← left_eq]
    exact Nat.sub_lt_sub_left (Nat.lt_trans later inRange) later

theorem nextReady?_eq (sound : g.Sound d) {before after : List Node} {n : Node}
    (split : g.liveNodes roots = before ++ n :: after) {finished : List NodeId}
    (done : ∀ i, i ∈ finished ↔ ∃ m ∈ before, m.id = i) :
    g.nextReady? (g.liveNodes roots) finished = some n := by
  unfold nextReady?
  rw [split, List.find?_append]
  have skipped : before.find? (fun n => !finished.contains n.id &&
      (g.producers n).all fun p => finished.contains p) = none := by
    refine List.find?_eq_none.mpr fun m member => ?_
    have finishedM : m.id ∈ finished := (done _).mpr ⟨m, member, rfl⟩
    simp [finishedM]
  have fresh : n.id ∉ finished := by
    intro member
    obtain ⟨m, inBefore, same⟩ := (done _).mp member
    have less := sound.live_earlier split m inBefore
    have liveM : m ∈ g.liveNodes roots := by
      rw [split]
      exact List.mem_append_left _ inBefore
    have liveN : n ∈ g.liveNodes roots := by
      rw [split]
      simp
    have atM := sound.live_mem liveM
    rw [same, sound.live_mem liveN] at atM
    cases atM
    exact Nat.lt_irrefl _ less
  have ready : ∀ p ∈ g.producers n, p ∈ finished := by
    intro p member
    obtain ⟨v, reads, mapped⟩ := List.mem_filterMap.mp member
    obtain ⟨m, produced, rfl⟩ := Option.map_eq_some_iff.mp mapped
    exact (done _).mpr ⟨m, sound.live_before split reads produced, rfl⟩
  rw [skipped, List.find?_cons_of_pos]
  · rfl
  · simpa [fresh] using ready

theorem orderFrom_eq (sound : g.Sound d) {before after : List Node}
    (split : g.liveNodes roots = before ++ after) {finished : List NodeId}
    (done : ∀ i, i ∈ finished ↔ ∃ m ∈ before, m.id = i) :
    g.orderFrom (g.liveNodes roots) after.length finished = .ok after := by
  induction after generalizing before finished with
  | nil => rfl
  | cons n after ih =>
    have splitRest : g.liveNodes roots = (before ++ [n]) ++ after := by simp [split]
    have doneRest : ∀ i, i ∈ n.id :: finished ↔ ∃ m ∈ before ++ [n], m.id = i := by
      intro i
      simp only [List.mem_cons, done, List.mem_append, List.not_mem_nil, or_false]
      constructor
      · rintro (rfl | ⟨m, member, rfl⟩)
        · exact ⟨n, .inr rfl, rfl⟩
        · exact ⟨m, .inl member, rfl⟩
      · rintro ⟨m, member | rfl, rfl⟩
        · exact .inr ⟨m, member, rfl⟩
        · exact .inl rfl
    simp only [List.length_cons, orderFrom, sound.nextReady?_eq split done, ih splitRest doneRest,
      ok_bind]
    rfl

/-- Operations run in the order of their creation. -/
theorem order_eq (sound : g.Sound d) (known : ∀ v ∈ roots, v < g.vars.size) :
    g.order roots = .ok (g.liveNodes roots) := by
  simp only [order]
  rw [roots_found known]
  have nothingDone : g.liveNodes roots = [] ++ g.liveNodes roots := rfl
  exact sound.orderFrom_eq nothingDone (by simp)

end Sound

end Graph

end TensorGraph
