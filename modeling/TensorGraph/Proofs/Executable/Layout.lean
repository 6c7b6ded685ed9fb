import Mathlib.Logic.Relation
import TensorGraph.Executable.Schedule
import TensorGraph.Proofs.Pass.Copied

/-! Slots. Two values share a slot only if one was made over the other, step by step. When the second one
is there, nobody reads the first one any more. -/
namespace TensorGraph

open Checked Relation

namespace Program

/-- The second variable is made over the first one. -/
def Overwrites (p : Program) (u w : VarId) : Prop :=
  ∃ n ∈ p.liveNodes, ∃ i, n.inPlace = some i ∧ n.inputs[i]? = some u ∧ n.output = w

variable {p : Program} {d : Discipline}

theorem Overwrites.lt (valid : p.Valid d) {u w : VarId} (overwrites : p.Overwrites u w) : u < w := by
  obtain ⟨n, live, i, -, atI, rfl⟩ := overwrites
  exact (valid.graph.node (valid.graph.live_mem live)).reads u (List.mem_of_getElem? atI)

theorem overwrites_trans_lt (valid : p.Valid d) {u w : VarId} (overwrites : TransGen p.Overwrites u w) :
    u < w := by
  induction overwrites with
  | single last => exact last.lt valid
  | tail _ last ih => exact Nat.lt_trans ih (last.lt valid)

/-- A variable is overwritten by one operation only. -/
theorem OverwritesSafely.unique (safely : p.OverwritesSafely) {u w w' : VarId}
    (first : p.Overwrites u w) (second : p.Overwrites u w') : w = w' := by
  obtain ⟨n, live, i, marked, atI, rfl⟩ := first
  obtain ⟨n', live', i', marked', atI', rfl⟩ := second
  obtain ⟨v, atV, spares⟩ := safely n live i marked
  obtain ⟨v', atV', spares'⟩ := safely n' live' i' marked'
  obtain rfl : u = v := Option.some.inj (atI.symm.trans atV)
  obtain rfl : u = v' := Option.some.inj (atI'.symm.trans atV')
  rcases Nat.lt_trichotomy n.output n'.output with before | same | after
  · exact absurd (List.mem_of_getElem? atI') (spares.last n' live' before)
  · exact same
  · exact absurd (List.mem_of_getElem? atI) (spares'.last n live after)

end Program

namespace Layout

/-- The second layout keeps all slots of the first one. -/
def Grows (l l' : Layout) : Prop := ∀ (v : VarId) (s : SlotId), l.slot v = some s → l'.slot v = some s

theorem Grows.trans {l l' l'' : Layout} (first : l.Grows l') (second : l'.Grows l'') :
    l.Grows l'' := fun v s at_ => second v s (first v s at_)

theorem Grows.isSome {l l' : Layout} (grows : l.Grows l') {v : VarId} (given : (l.slot v).isSome) :
    (l'.slot v).isSome := by
  obtain ⟨s, at_⟩ := Option.isSome_iff_exists.mp given
  rw [grows v s at_]
  rfl

/-- Slots after the operations `done`: results of others have none. -/
def Early (l : Layout) (p : Program) (done : List Node) : Prop :=
  ∀ (v : VarId) (s : SlotId), l.slot v = some s → ∀ k ∈ p.liveNodes, k.output = v → k ∈ done

/-- Slots after the operations `done`: results of others have none, and a slot is shared only by
values made over each other. -/
structure Fair (l : Layout) (p : Program) (done : List Node) : Prop where
  inRange : ∀ {v : VarId} {s : SlotId}, l.slot v = some s → s < l.count
  domain : l.Early p done
  shared : ∀ {v w : VarId} {s : SlotId}, l.slot v = some s → l.slot w = some s →
    v = w ∨ TransGen p.Overwrites v w ∨ TransGen p.Overwrites w v

/-- What an operation needs has slots. -/
structure Slotted (l : Layout) (n : Node) : Prop where
  inputs : ∀ v ∈ n.inputs, (l.slot v).isSome
  output : (l.slot n.output).isSome
  inPlace : ∀ {i : Nat} {u : VarId}, n.inPlace = some i → n.inputs[i]? = some u →
    l.slot n.output = l.slot u

theorem Slotted.mono {l l' : Layout} {n : Node} (slotted : l.Slotted n) (grows : l.Grows l') :
    l'.Slotted n where
  inputs v reads := grows.isSome (slotted.inputs v reads)
  output := grows.isSome slotted.output
  inPlace {i u} marked atI := by
    obtain ⟨s, at_⟩ := Option.isSome_iff_exists.mp (slotted.inputs u (List.mem_of_getElem? atI))
    rw [grows _ _ at_, grows _ _ ((slotted.inPlace marked atI).trans at_)]

variable {l : Layout} {p : Program} {d : Discipline} {done : List Node}

theorem Fair.start (p : Program) : ({} : Layout).Fair p [] where
  inRange at_ := by cases at_
  domain v s at_ := by cases at_
  shared at_ := by cases at_

theorem assign_slot (l : Layout) (v : VarId) : ((l.assign v).slot v).isSome := by
  unfold assign
  cases at_ : l.slot v with
  | some s => simp [at_]
  | none => simp

theorem assign_grows (l : Layout) (v : VarId) : l.Grows (l.assign v) := by
  intro w s atW
  unfold assign
  cases at_ : l.slot v with
  | some _ => exact atW
  | none =>
    have other : w ≠ v := by
      rintro rfl
      cases atW.symm.trans at_
    simp only [other, ↓reduceIte]
    exact atW

theorem Early.assign (early : l.Early p done) {v : VarId} (made : ∀ k ∈ p.liveNodes, k.output = v → k ∈ done) :
    (l.assign v).Early p done := by
  intro w s atW
  unfold Layout.assign at atW
  cases at_ : l.slot v with
  | some _ =>
    rw [at_] at atW
    exact early w s atW
  | none =>
    rw [at_] at atW
    by_cases same : w = v
    · exact same ▸ made
    · exact early w s ((if_neg same).symm.trans atW)

theorem Early.assignAll (early : l.Early p done) {vs : List VarId}
    (made : ∀ v ∈ vs, ∀ k ∈ p.liveNodes, k.output = v → k ∈ done) : (l.assignAll vs).Early p done := by
  induction vs generalizing l with
  | nil => exact early
  | cons v vs ih => exact ih (early.assign (made v (by simp))) fun w member => made w (List.mem_cons_of_mem _ member)

theorem Early.mono (early : l.Early p done) {done' : List Node} (more : done ⊆ done') : l.Early p done' :=
  fun v s at_ k live out => more (early v s at_ k live out)

/-- A new slot is shared with nobody. -/
theorem Fair.assign (fair : l.Fair p done) {v : VarId}
    (made : ∀ k ∈ p.liveNodes, k.output = v → k ∈ done) : (l.assign v).Fair p done := by
  unfold Layout.assign
  cases at_ : l.slot v with
  | some _ => exact fair
  | none =>
    have cases_ : ∀ {w : VarId} {s : SlotId}, (if w = v then some l.count else l.slot w) = some s →
        (w = v ∧ s = l.count) ∨ (l.slot w = some s ∧ s < l.count) := by
      intro w s atW
      by_cases same : w = v
      · rw [if_pos same] at atW
        exact .inl ⟨same, (Option.some.inj atW).symm⟩
      · rw [if_neg same] at atW
        exact .inr ⟨atW, fair.inRange atW⟩
    have domain := fair.domain.assign made
    unfold Layout.assign at domain
    rw [at_] at domain
    refine ⟨fun {w s} atW => ?_, domain, fun {w x s} atW atX => ?_⟩
    · rcases cases_ atW with ⟨-, rfl⟩ | ⟨-, inside⟩
      · exact Nat.lt_succ_self _
      · exact Nat.lt_succ_of_lt inside
    · rcases cases_ atW with ⟨rfl, rfl⟩ | ⟨oldW, inside⟩ <;>
        rcases cases_ atX with ⟨rfl, same⟩ | ⟨oldX, inside'⟩
      · exact .inl rfl
      · exact absurd inside' (Nat.lt_irrefl _)
      · rw [same] at inside
        exact absurd inside (Nat.lt_irrefl _)
      · exact fair.shared oldW oldX

theorem assignAll_grows (l : Layout) (vs : List VarId) : l.Grows (l.assignAll vs) := by
  induction vs generalizing l with
  | nil => exact fun _ _ at_ => at_
  | cons v vs ih => exact (assign_grows l v).trans (ih _)

theorem assignAll_slots (l : Layout) (vs : List VarId) :
    ∀ v ∈ vs, ((l.assignAll vs).slot v).isSome := by
  induction vs generalizing l with
  | nil => simp
  | cons v vs ih =>
    intro w member
    rcases List.mem_cons.mp member with rfl | later
    · exact (assignAll_grows _ vs).isSome (assign_slot l w)
    · exact ih _ w later

theorem Fair.assignAll (fair : l.Fair p done) {vs : List VarId}
    (made : ∀ v ∈ vs, ∀ k ∈ p.liveNodes, k.output = v → k ∈ done) :
    (l.assignAll vs).Fair p done := by
  induction vs generalizing l with
  | nil => exact fair
  | cons v vs ih =>
    exact ih (fair.assign (made v (by simp))) fun w member => made w (List.mem_cons_of_mem _ member)

theorem Fair.mono (fair : l.Fair p done) {done' : List Node} (more : done ⊆ done') :
    l.Fair p done' := { fair with domain := fair.domain.mono more }

theorem site_eq_ok {v : VarId} {x : Site} :
    l.site v = .ok x ↔ x.var = v ∧ l.slot v = some x.slot := by
  unfold site
  cases at_ : l.slot v with
  | none => simp
  | some s =>
    rcases x with ⟨var, slot⟩
    simp only [Except.ok.injEq, Site.mk.injEq, Option.some.injEq]
    exact and_congr_left fun _ => eq_comm

theorem site_of_slot {v : VarId} (given : (l.slot v).isSome) : ∃ x, l.site v = .ok x := by
  obtain ⟨s, at_⟩ := Option.isSome_iff_exists.mp given
  exact ⟨⟨v, s⟩, site_eq_ok.mpr ⟨rfl, at_⟩⟩

theorem sites_of_slots {vs : List VarId} (given : ∀ v ∈ vs, (l.slot v).isSome) :
    ∃ xs, vs.mapM l.site = .ok xs := exists_mapM_ok fun v member => site_of_slot (given v member)

/-- Whoever is in the slot of an operand that is overwritten next was overwritten to make it. -/
theorem Fair.chain (fair : l.Fair p done) (valid : p.Valid d) (safely : p.OverwritesSafely) {n : Node}
    {after : List Node} (split : p.liveNodes = done ++ n :: after) {u w : VarId} {s : SlotId}
    (overwrites : p.Overwrites u n.output) (fresh : l.slot n.output = none) (atU : l.slot u = some s)
    (atW : l.slot w = some s) : TransGen p.Overwrites w n.output := by
  rcases fair.shared atU atW with rfl | later | earlier
  · exact .single overwrites
  · -- The operand is overwritten once, so the other variable is made over the new result, too early.
    obtain ⟨w', first, rest⟩ := TransGen.head'_iff.mp later
    obtain rfl := safely.unique first overwrites
    rcases ReflTransGen.cases_tail rest with same | ⟨v, upTo, m, liveM, j, marked, atJ, rfl⟩
    · rw [same, fresh] at atW
      cases atW
    · have early := fair.domain _ _ atW m liveM rfl
      have less := valid.graph.live_earlier split m early
      have more : n.output < m.output :=
        Program.overwrites_trans_lt valid (.tail' upTo ⟨m, liveM, j, marked, atJ, rfl⟩)
      exact absurd less (Nat.lt_asymm more)
  · exact .tail earlier overwrites

/-- The operands of the next operation are results of operations that are done, or leaves. -/
theorem made_inputs (valid : p.Valid d) {n : Node} {after : List Node} (split : p.liveNodes = done ++ n :: after) :
    ∀ v ∈ n.inputs, ∀ k ∈ p.liveNodes, k.output = v → k ∈ done := by
  rintro v reads k liveK rfl
  exact valid.graph.live_before split reads (valid.graph.producer?_output (valid.graph.live_mem liveK))

/-- Its result is the result of no other operation. -/
theorem made_output (valid : p.Valid d) {n : Node} (live : n ∈ p.liveNodes) :
    ∀ k ∈ p.liveNodes, k.output = n.output → k ∈ done ++ [n] := by
  intro k liveK same
  obtain rfl : k = n := by
    have atK := valid.graph.live_mem liveK
    have atN := valid.graph.live_mem live
    rw [valid.graph.eq_of_output atK atN same, atN] at atK
    exact (Option.some.inj atK).symm
  simp

/-- The result of the next operation has no slot yet. -/
theorem Early.fresh (early : l.Early p done) (valid : p.Valid d) {n : Node} {after : List Node}
    (split : p.liveNodes = done ++ n :: after) : l.slot n.output = none := by
  cases atOut : l.slot n.output with
  | none => rfl
  | some s =>
    have member : n ∈ done := early _ s atOut n (by rw [split]; simp) rfl
    exact absurd (valid.graph.live_earlier split n member) (Nat.lt_irrefl _)

/-- A fresh variable shares a slot and nothing is forgotten. -/
theorem share_grows {v : VarId} {s : SlotId} (fresh : l.slot v = none) :
    l.Grows { l with slot := fun w => if w = v then some s else l.slot w } := by
  intro w s atW
  have other : w ≠ v := by
    rintro rfl
    cases atW.symm.trans fresh
  simp only [other, ↓reduceIte]
  exact atW

/-- The next operation is given its slots, if its mark is on an operand. -/
theorem Early.addNode (early : l.Early p done) (valid : p.Valid d) {n : Node} {after : List Node}
    (split : p.liveNodes = done ++ n :: after) (marks : ∀ i, n.inPlace = some i → i < n.inputs.length) :
    ∃ l', l.addNode n = .ok l' ∧ l'.Early p (done ++ [n]) ∧ l.Grows l' ∧ l'.Slotted n := by
  have live : n ∈ p.liveNodes := by
    rw [split]
    simp
  have early₁ := early.assignAll (made_inputs valid split)
  have grows₁ := assignAll_grows l n.inputs
  have slots₁ := assignAll_slots l n.inputs
  have later := early₁.mono (List.subset_append_left done [n])
  unfold Layout.addNode
  cases marked : n.inPlace with
  | none =>
    refine ⟨_, rfl, later.assign (made_output valid live), grows₁.trans (assign_grows _ _), ?_, assign_slot _ _, ?_⟩
    · exact fun v reads => (assign_grows _ _).isSome (slots₁ v reads)
    · rintro i u wrong
      rw [marked] at wrong
      cases wrong
  | some i =>
    obtain ⟨u, atI⟩ : ∃ u, n.inputs[i]? = some u := ⟨_, List.getElem?_eq_getElem (marks i marked)⟩
    have reads : u ∈ n.inputs := List.mem_of_getElem? atI
    obtain ⟨x, here⟩ := site_of_slot (slots₁ u reads)
    have before : u ≠ n.output := Nat.ne_of_lt ((valid.graph.node (valid.graph.live_mem live)).reads u reads)
    have grows₂ := share_grows (s := x.slot) (early₁.fresh valid split)
    refine ⟨_, by simp only [Kernel.item_eq_ok.mpr atI, ok_bind, share, here]; rfl, ?_, grows₁.trans grows₂, ?_⟩
    · intro w s atW
      by_cases same : w = n.output
      · exact same ▸ made_output valid live
      · exact later w s ((if_neg same).symm.trans atW)
    · refine ⟨fun v reads' => grows₂.isSome (slots₁ v reads'), by simp, fun {j w} marked' atJ => ?_⟩
      obtain rfl : i = j := Option.some.inj (marked.symm.trans marked')
      obtain rfl : u = w := Option.some.inj (atI.symm.trans atJ)
      simp only [↓reduceIte, before]
      exact (site_eq_ok.mp here).2.symm

/-- The result of the next operation shares a slot only with what it overwrites. -/
theorem Fair.addNode (fair : l.Fair p done) (valid : p.Valid d) (safely : p.OverwritesSafely)
    {n : Node} {after : List Node} (split : p.liveNodes = done ++ n :: after) :
    ∃ l', l.addNode n = .ok l' ∧ l'.Fair p (done ++ [n]) ∧ l.Grows l' ∧ l'.Slotted n := by
  have live : n ∈ p.liveNodes := by
    rw [split]
    simp
  have fair₁ := fair.assignAll (made_inputs valid split)
  have slots₁ := assignAll_slots l n.inputs
  have marks : ∀ i, n.inPlace = some i → i < n.inputs.length := by
    intro i marked
    obtain ⟨u, atI, -⟩ := safely n live i marked
    exact (List.getElem?_eq_some_iff.mp atI).1
  obtain ⟨l', added, early, grows, slotted⟩ := fair.domain.addNode valid split marks
  refine ⟨l', added, ?_, grows, slotted⟩
  unfold Layout.addNode at added
  cases marked : n.inPlace with
  | none =>
    simp only [marked, Except.ok.injEq] at added
    subst added
    exact (fair₁.mono (List.subset_append_left done [n])).assign (made_output valid live)
  | some i =>
    obtain ⟨u, atI, -⟩ := safely n live i marked
    have reads : u ∈ n.inputs := List.mem_of_getElem? atI
    obtain ⟨x, here⟩ := site_of_slot (slots₁ u reads)
    obtain ⟨-, atU⟩ := site_eq_ok.mp here
    simp only [marked, Kernel.item_eq_ok.mpr atI, ok_bind, share, here, pure_eq, Except.ok.injEq] at added
    subst added
    have fresh := fair₁.domain.fresh valid split
    have overwrites : p.Overwrites u n.output := ⟨n, live, i, marked, atI, rfl⟩
    have chain : ∀ {w : VarId}, (l.assignAll n.inputs).slot w = some x.slot →
        TransGen p.Overwrites w n.output := fun atW => fair₁.chain valid safely split overwrites fresh atU atW
    have slotOf : ∀ {w : VarId} {s : SlotId},
        (if w = n.output then some x.slot else (l.assignAll n.inputs).slot w) = some s →
        (w = n.output ∧ s = x.slot) ∨ (l.assignAll n.inputs).slot w = some s := by
      intro w s atW
      by_cases same : w = n.output
      · rw [if_pos same] at atW
        exact .inl ⟨same, (Option.some.inj atW).symm⟩
      · rw [if_neg same] at atW
        exact .inr atW
    refine ⟨?_, early, ?_⟩
    · intro w s atW
      rcases slotOf atW with ⟨-, rfl⟩ | old
      · exact fair₁.inRange atU
      · exact fair₁.inRange old
    · intro w w' s atW atW'
      rcases slotOf atW with ⟨rfl, rfl⟩ | old <;> rcases slotOf atW' with ⟨rfl, same⟩ | old'
      · exact .inl rfl
      · exact .inr (.inr (chain old'))
      · rw [same] at old
        exact .inr (.inl (chain old))
      · exact fair₁.shared old old'

/-- What is still needed is not in the slot that an operation writes. -/
theorem Fair.spared (fair : l.Fair p p.liveNodes) (valid : p.Valid d) (safely : p.OverwritesSafely)
    {before after : List Node} {n : Node} (split : p.liveNodes = before ++ n :: after) {u : VarId}
    {s : SlotId} (atU : l.slot u = some s) (atOutput : l.slot n.output = some s)
    (made : ∀ k ∈ p.liveNodes, k.output = u → k ∈ before ++ [n])
    (needed : u ∈ p.roots ∨ ∃ m ∈ after, u ∈ m.inputs) : u = n.output := by
  have sorted : p.liveNodes.Pairwise fun a b => a.output < b.output := valid.graph.live_sorted
  rw [split] at sorted
  obtain ⟨-, later, earlier⟩ := List.pairwise_append.mp sorted
  rcases fair.shared atU atOutput with same | overwrites | overwrites
  · exact same
  · obtain ⟨w, ⟨m, live, i, marked, atI, rfl⟩, rest⟩ := TransGen.head'_iff.mp overwrites
    obtain ⟨v, atV, spares⟩ := safely m live i marked
    obtain rfl : u = v := Option.some.inj (atI.symm.trans atV)
    have upTo : m.output ≤ n.output := by
      rcases reflTransGen_iff_eq_or_transGen.mp rest with same | further
      · exact Nat.le_of_eq same.symm
      · exact Nat.le_of_lt (Program.overwrites_trans_lt valid further)
    rcases needed with root | ⟨k, inAfter, reads⟩
    · exact absurd root spares.root
    · refine absurd reads (spares.last k (by rw [split]; simp [inAfter]) ?_)
      exact Nat.lt_of_le_of_lt upTo ((List.pairwise_cons.mp later).1 k inAfter)
  · obtain ⟨v, upTo, m, live, i, marked, atI, rfl⟩ := TransGen.tail'_iff.mp overwrites
    have less := Program.overwrites_trans_lt valid overwrites
    rcases List.mem_append.mp (made m live rfl) with old | here
    · exact absurd less (Nat.lt_asymm (earlier m old n (by simp)))
    · rw [List.mem_singleton.mp here] at less
      exact absurd less (Nat.lt_irrefl _)

/-- A variable that neither overwrites nor is overwritten has its slot for itself. -/
theorem Fair.alone {ns : List Node} (fair : l.Fair p ns) {v w : VarId} {s : SlotId}
    (atV : l.slot v = some s) (atW : l.slot w = some s) (overwrites : ∀ u, ¬ p.Overwrites v u)
    (under : ∀ u, ¬ p.Overwrites u v) : w = v := by
  rcases fair.shared atV atW with same | chain | chain
  · exact same.symm
  · obtain ⟨u, first, -⟩ := TransGen.head'_iff.mp chain
    exact absurd first (overwrites u)
  · obtain ⟨u, -, last⟩ := TransGen.tail'_iff.mp chain
    exact absurd last (under u)

/-- Slots are given step by step, and what its operations need keeps its slots. -/
theorem build_steps {p : Program} (inv : Layout → List Node → Prop) (start : inv (({} : Layout).assignAll p.inputs) [])
    (each : ∀ {l : Layout} {before after : List Node} {n : Node}, p.liveNodes = before ++ n :: after → inv l before →
      ∃ l', l.addNode n = .ok l' ∧ inv l' (before ++ [n]) ∧ l.Grows l' ∧ l'.Slotted n) :
    ∃ l, Layout.build p p.liveNodes = .ok (l.assignAll p.roots) ∧ inv l p.liveNodes ∧
      (∀ n ∈ p.liveNodes, (l.assignAll p.roots).Slotted n) ∧
        ∀ v, v ∈ p.inputs ∨ v ∈ p.roots → ((l.assignAll p.roots).slot v).isSome := by
  have steps : ∀ after before (l : Layout), p.liveNodes = before ++ after → inv l before →
      (∀ n ∈ before, l.Slotted n) → ∃ l', after.foldlM addNode l = .ok l' ∧
        inv l' p.liveNodes ∧ l.Grows l' ∧ ∀ n ∈ p.liveNodes, l'.Slotted n := by
    intro after
    induction after with
    | nil =>
      intro before l split held slotted
      rw [List.append_nil] at split
      exact ⟨l, rfl, split ▸ held, fun _ _ at_ => at_, fun n live => slotted n (split ▸ live)⟩
    | cons n after ih =>
      intro before l split held slotted
      obtain ⟨l₁, added, held₁, grows₁, here⟩ := each split held
      obtain ⟨l₂, ran, held₂, grows₂, all⟩ := ih (before ++ [n]) l₁ (by simp [split]) held₁ (by
        intro m member
        rcases List.mem_append.mp member with old | new
        · exact (slotted m old).mono grows₁
        · rw [List.mem_singleton.mp new]
          exact here)
      refine ⟨l₂, ?_, held₂, grows₁.trans grows₂, all⟩
      rw [List.foldlM_cons, added, ok_bind, ran]
  obtain ⟨l, ran, held, grows, slotted⟩ := steps p.liveNodes [] _ rfl start (by simp)
  refine ⟨l, ?_, held, fun n live => (slotted n live).mono (assignAll_grows _ _), ?_⟩
  · unfold Layout.build
    rw [ran]
    rfl
  · rintro v (input | root)
    · exact (assignAll_grows _ _).isSome (grows.isSome (assignAll_slots _ _ v input))
    · exact assignAll_slots _ _ v root

/-- No operation computes an input. -/
theorem made_leaves (valid : p.Valid d) : ∀ v ∈ p.inputs, ∀ k ∈ p.liveNodes, k.output = v → k ∈ ([] : List Node) := by
  rintro v member k live rfl
  obtain ⟨x, atV, origin⟩ := valid.inputs _ member
  obtain ⟨y, atV', origin'⟩ := (valid.graph.node (valid.graph.live_mem live)).output
  obtain rfl : x = y := Option.some.inj (atV.symm.trans atV')
  cases origin.symm.trans origin'

/-- A program whose marks are on operands can be laid out, and all that its operations need has slots. -/
theorem build_slotted (valid : p.Valid d) (marks : ∀ n ∈ p.liveNodes, ∀ i, n.inPlace = some i → i < n.inputs.length) :
    ∃ l, Layout.build p p.liveNodes = .ok l ∧ (∀ n ∈ p.liveNodes, l.Slotted n) ∧
      ∀ v, v ∈ p.inputs ∨ v ∈ p.roots → (l.slot v).isSome := by
  obtain ⟨l, built, -, slotted, slots⟩ := build_steps (fun l done => l.Early p done)
    ((Fair.start p).domain.assignAll (made_leaves valid))
    fun {_ _ _ n} split early => early.addNode valid split (marks n (by rw [split]; simp))
  exact ⟨_, built, slotted, slots⟩

/-- If the marks are safe, a slot is shared only by values made over each other. -/
theorem build_fair (valid : p.Valid d) (safely : p.OverwritesSafely) :
    ∃ l, Layout.build p p.liveNodes = .ok l ∧ l.Fair p p.liveNodes ∧
      (∀ n ∈ p.liveNodes, l.Slotted n) ∧ ∀ v, v ∈ p.inputs ∨ v ∈ p.roots → (l.slot v).isSome := by
  obtain ⟨l, built, fair, slotted, slots⟩ := build_steps (fun l done => l.Fair p done)
    ((Fair.start p).assignAll (made_leaves valid)) fun split fair => fair.addNode valid safely split
  exact ⟨_, built, fair.assignAll fun v _ k live _ => live, slotted, slots⟩

end Layout

end TensorGraph
