import TensorGraph.Proofs.Program.Valid

/-! What construction accepts: a valid program with a result, whose updates go to different persistent values. With
`valid_of_validate` this says exactly which programs on a well-formed graph are accepted. -/
namespace TensorGraph

open Checked

/-- A well-formed graph passes its own check: what an operation reads was computed by an earlier one. -/
theorem Graph.Sound.validate {g : Graph} {d : Discipline} (sound : g.Sound d) : g.validate = .ok () := by
  refine forM_eq_ok.mpr fun n member => ?_
  have at_ := sound.mem_nodes member
  have known := sound.node at_
  obtain ⟨y, atOutput, origin⟩ := known.output
  obtain ⟨tys, -, -, types, -⟩ := known.typed
  refine bind_eq_ok.mpr ⟨⟨⟩, forM_eq_ok.mpr fun v inInputs => ?_, ?_⟩
  · have inRange := types.inRange v inInputs
    rw [var_eq_ok.mpr (Array.getElem?_eq_getElem inRange), ok_bind]
    cases source : g.vars[v].origin with
    | output i =>
      obtain ⟨m, atI, rfl⟩ := sound.produced (Array.getElem?_eq_getElem inRange) source
      have early : ¬ i ≥ n.id := by
        intro late
        have before := known.reads m.output inInputs
        rcases Nat.eq_or_lt_of_le late with same | later
        · rw [← same, at_] at atI
          cases atI
          exact Nat.lt_irrefl _ before
        · exact Nat.lt_asymm before (sound.ordered at_ atI later)
      simp [early]
    | _ => rfl
  · rw [var_eq_ok.mpr atOutput, ok_bind, origin]
    simp

namespace Program

theorem checkInputs_of {g : Graph} {seen vs : List VarId}
    (each : ∀ v ∈ vs, (∃ x, g.vars[v]? = some x ∧ x.origin = .input) ∧ v ∉ seen) (distinct : vs.Nodup) :
    checkInputs g seen vs = .ok () := by
  induction vs generalizing seen with
  | nil => rfl
  | cons v vs ih =>
    obtain ⟨⟨x, atV, origin⟩, fresh⟩ := each v (by simp)
    obtain ⟨apart, rest⟩ := List.nodup_cons.mp distinct
    unfold checkInputs
    rw [Graph.var_eq_ok.mpr atV, ok_bind]
    simp only [Var.isInput, origin, Bool.not_true, Bool.false_eq_true, ↓reduceIte, List.contains_iff_mem, fresh]
    refine ih (fun u member => ⟨(each u (List.mem_cons_of_mem _ member)).1, fun old => ?_⟩) rest
    rcases List.mem_cons.mp old with rfl | before
    · exact apart member
    · exact (each u (List.mem_cons_of_mem _ member)).2 before

theorem checkUpdates_of {g : Graph} {seen : List VarId} {us : List (VarId × VarId)}
    (each : ∀ u ∈ us, (∃ x y c, g.vars[u.1]? = some x ∧ g.vars[u.2]? = some y ∧ x.origin = .shared c ∧
      x.ty.Alike y.ty) ∧ u.1 ∉ seen) (distinct : (us.map Prod.fst).Nodup) : checkUpdates g seen us = .ok () := by
  induction us generalizing seen with
  | nil => rfl
  | cons first us ih =>
    obtain ⟨target, value⟩ := first
    obtain ⟨⟨x, y, c, atTarget, atValue, origin, kind, rank⟩, fresh⟩ := each (target, value) (by simp)
    obtain ⟨apart, rest⟩ := List.nodup_cons.mp distinct
    unfold checkUpdates
    rw [Graph.var_eq_ok.mpr atTarget, ok_bind, Graph.var_eq_ok.mpr atValue, ok_bind]
    simp only [Var.cell?, origin, Option.isNone_some, Bool.false_eq_true, ↓reduceIte, List.contains_iff_mem, fresh,
      kind, rank, ne_eq, not_true_eq_false]
    refine ih (fun u member => ⟨(each u (List.mem_cons_of_mem _ member)).1, fun old => ?_⟩) rest
    rcases List.mem_cons.mp old with same | before
    · exact apart (List.mem_map.mpr ⟨u, member, same⟩)
    · exact (each u (List.mem_cons_of_mem _ member)).2 before

theorem checkBound_of {g : Graph} {inputs vs : List VarId}
    (each : ∀ v ∈ vs, ∃ x, g.vars[v]? = some x ∧ (x.isInput → v ∈ inputs)) : checkBound g inputs vs = .ok () := by
  induction vs with
  | nil => rfl
  | cons v vs ih =>
    obtain ⟨x, atV, bound⟩ := each v (by simp)
    unfold checkBound
    rw [Graph.var_eq_ok.mpr atV, ok_bind, if_neg]
    · exact ih fun u member => each u (List.mem_cons_of_mem _ member)
    · simpa using bound

/-- The updates of an accepted program go to different persistent values. -/
theorem targets_of_checkUpdates {g : Graph} {seen : List VarId} {us : List (VarId × VarId)}
    (checked : checkUpdates g seen us = .ok ()) : (us.map Prod.fst).Nodup ∧ ∀ u ∈ us, u.1 ∉ seen := by
  induction us generalizing seen with
  | nil => simp
  | cons first us ih =>
    obtain ⟨target, value⟩ := first
    obtain ⟨x, -, rest⟩ := bind_eq_ok.mp checked
    obtain ⟨y, -, rest⟩ := bind_eq_ok.mp rest
    by_cases isCell : x.cell?.isNone
    · simp [isCell] at rest
    by_cases again : target ∈ seen
    · simp [isCell, again] at rest
    by_cases kind : x.ty.kind = y.ty.kind
    swap
    · simp [isCell, again, kind] at rest
    by_cases rank : x.ty.rank = y.ty.rank
    swap
    · simp [isCell, again, kind, rank] at rest
    simp only [isCell, again, kind, rank, ne_eq, not_true_eq_false, Bool.false_eq_true, ↓reduceIte,
      List.contains_iff_mem] at rest
    obtain ⟨distinct, fresh⟩ := ih rest
    constructor
    · refine List.nodup_cons.mpr ⟨fun twice => ?_, distinct⟩
      obtain ⟨u, member, rfl⟩ := List.mem_map.mp twice
      exact fresh u member (by simp)
    · intro u member
      rcases List.mem_cons.mp member with rfl | later
      · exact again
      · exact fun old => fresh u later (List.mem_cons_of_mem _ old)

/-- An accepted program has a result. -/
def HasResult (p : Program) : Prop := p.outputs ≠ [] ∨ p.updates ≠ []

theorem accepted_parts {p : Program} (accepted : p.validate = .ok ()) :
    p.HasResult ∧ (p.updates.map Prod.fst).Nodup := by
  obtain ⟨⟨⟩, -, rest⟩ := bind_eq_ok.mp accepted
  by_cases none : p.outputs.isEmpty && p.updates.isEmpty
  · simp [none] at rest
  rw [if_neg none] at rest
  obtain ⟨⟨⟩, -, rest⟩ := bind_eq_ok.mp rest
  obtain ⟨⟨⟩, -, rest⟩ := bind_eq_ok.mp rest
  obtain ⟨⟨⟩, updates, -⟩ := bind_eq_ok.mp rest
  refine ⟨?_, (targets_of_checkUpdates updates).1⟩
  unfold HasResult
  by_cases outputs : p.outputs = []
  · right
    simpa [outputs] using none
  · exact .inl outputs

theorem SameTypes.hasResult {p q : Program} (same : p.SameTypes q) (some : p.HasResult) : q.HasResult := by
  have outputs := congrArg List.length same.outputs
  have updates := congrArg List.length same.updates
  simp only [List.length_map] at outputs updates
  refine some.imp (fun given none => given ?_) fun given none => given ?_
  · exact List.eq_nil_of_length_eq_zero (by rw [outputs, none]; rfl)
  · exact List.eq_nil_of_length_eq_zero (by rw [updates, none]; rfl)

/-- A valid program with a result, whose updates go to different persistent values, is accepted. -/
theorem Valid.accepted {p : Program} {d : Discipline} (valid : p.Valid d) (typed : d.typed) (some : p.HasResult)
    (targets : (p.updates.map Prod.fst).Nodup) : p.validate = .ok () := by
  have result : ¬ (p.outputs.isEmpty && p.updates.isEmpty) = true := by
    simp only [Bool.and_eq_true, List.isEmpty_iff, not_and_or]
    exact some
  have inGraph : ∀ v ∈ p.outputs ++ p.inputs, v < p.graph.vars.size := by
    intro v member
    rcases List.mem_append.mp member with output | input
    · exact valid.outputs v output
    · obtain ⟨x, atV, -⟩ := valid.inputs v input
      exact (Array.getElem?_eq_some_iff.mp atV).1
  have known : (p.outputs ++ p.inputs).forM (fun v => discard (p.graph.var v)) = .ok () := by
    refine forM_eq_ok.mpr fun v member => ?_
    rw [Graph.var_eq_ok.mpr (Array.getElem?_eq_getElem (inGraph v member))]
    rfl
  have inputs : checkInputs p.graph [] p.inputs = .ok () :=
    checkInputs_of (fun v member => ⟨valid.inputs v member, by simp⟩) valid.distinct
  have updates : checkUpdates p.graph [] p.updates = .ok () := by
    refine checkUpdates_of (fun u member => ⟨?_, by simp⟩) targets
    obtain ⟨x, y, c, atTarget, atValue, origin, alike⟩ := valid.updates u member
    exact ⟨x, y, c, atTarget, atValue, origin, alike typed⟩
  have bound : checkBound p.graph p.inputs (p.liveNodes.flatMap Node.inputs ++ p.roots) = .ok () := by
    refine checkBound_of fun v member => ?_
    have wanted : v ∈ p.roots ∨ ∃ n ∈ p.liveNodes, v ∈ n.inputs := by
      rcases List.mem_append.mp member with operand | root
      · exact .inr (List.mem_flatMap.mp operand)
      · exact .inl root
    have inRange : v < p.graph.vars.size := by
      rcases wanted with root | ⟨n, live, reads⟩
      · exact valid.roots v root
      · obtain ⟨tys, -, -, types, -⟩ := (valid.graph.node (valid.graph.live_mem live)).typed
        exact types.inRange v reads
    have atV := Array.getElem?_eq_getElem inRange
    exact ⟨_, atV, valid.bound wanted atV⟩
  unfold validate
  rw [valid.graph.validate, ok_bind, if_neg result, known, ok_bind, inputs, ok_bind, updates, ok_bind, bound]

end Program

end TensorGraph
