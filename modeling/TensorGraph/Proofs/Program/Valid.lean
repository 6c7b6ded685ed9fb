import TensorGraph.Program
import TensorGraph.Proofs.Graph.Built
import TensorGraph.Proofs.Graph.Live
import TensorGraph.Proofs.Graph.Value
import TensorGraph.Proofs.Op.Sizes

/-! Programs whose interface fits their graph, and what it means for two of them to do the same. -/
namespace TensorGraph

open Checked

/-- A persistent value has its kind and rank. -/
def Cell.Typed (c : Cell) (cells : Array Tensor) : Prop :=
  (cells.getD c.id default).kind = c.kind ∧ (cells.getD c.id default).rank = c.rank

/-- When an operation has no value, one of the variables that need it has none. -/
theorem Graph.Sound.root_without [BlockRoutine] {g : Graph} {d : Discipline} (sound : g.Sound d) {math : Place → MathMode}
    {b : Binding} {roots : List VarId} {n : Node} (live : n ∈ g.liveNodes roots)
    (without : g.value math b n.output = none) : ∃ v ∈ roots, g.value math b v = none := by
  refine sound.live_induction (motive := fun n => g.value math b n.output = none → ∃ v ∈ roots, g.value math b v = none)
    (fun n live ih without => ?_) live without
  obtain ⟨-, root | ⟨m, liveM, reads⟩⟩ := sound.mem_live.mp live
  · exact ⟨n.output, root, without⟩
  · have atM := sound.live_mem liveM
    refine ih m liveM ((sound.node atM).reads _ reads) ?_
    rw [sound.value_output atM]
    cases operands : m.inputs.mapM (g.value math b) with
    | none => rfl
    | some ts =>
      obtain ⟨t, -, has⟩ := partner (mapM_eq_some.mp operands) reads
      rw [without] at has
      cases has

namespace Program

/-- A program that construction accepted, on a graph of some discipline. -/
structure Valid (p : Program) (d : Discipline) : Prop where
  graph : p.graph.Sound d
  inputs : ∀ v ∈ p.inputs, ∃ x, p.graph.vars[v]? = some x ∧ x.origin = .input
  distinct : p.inputs.Nodup
  outputs : ∀ v ∈ p.outputs, v < p.graph.vars.size
  updates : ∀ u ∈ p.updates, ∃ x y c, p.graph.vars[u.1]? = some x ∧ p.graph.vars[u.2]? = some y ∧
    x.origin = .shared c ∧ (d.typed → x.ty.Alike y.ty)
  bound : ∀ {v : VarId} {x : Var}, v ∈ p.roots ∨ (∃ n ∈ p.liveNodes, v ∈ n.inputs) →
    p.graph.vars[v]? = some x → x.isInput → v ∈ p.inputs

theorem Valid.mono {p : Program} {d d' : Discipline} (valid : p.Valid d) (implies : d.Implies d') :
    p.Valid d' where
  graph := valid.graph.mono implies
  inputs := valid.inputs
  distinct := valid.distinct
  outputs := valid.outputs
  updates u member := by
    obtain ⟨x, y, c, atTarget, atValue, origin, alike⟩ := valid.updates u member
    exact ⟨x, y, c, atTarget, atValue, origin, fun typed => alike (implies.typed typed)⟩
  bound := valid.bound

theorem Valid.roots {p : Program} {d : Discipline} (valid : p.Valid d) :
    ∀ v ∈ p.roots, v < p.graph.vars.size := by
  intro v member
  rcases List.mem_append.mp member with output | value
  · exact valid.outputs v output
  · obtain ⟨u, inUpdates, rfl⟩ := List.mem_map.mp value
    obtain ⟨x, y, c, -, atValue, -, -⟩ := valid.updates u inUpdates
    exact (Array.getElem?_eq_some_iff.mp atValue).1

theorem Valid.order_eq {p : Program} {d : Discipline} (valid : p.Valid d) :
    p.order = .ok p.liveNodes := valid.graph.order_eq valid.roots

theorem checkInputs_ok {g : Graph} {seen vs : List VarId}
    (checked : checkInputs g seen vs = .ok ()) :
    (∀ v ∈ vs, (∃ x, g.vars[v]? = some x ∧ x.origin = .input) ∧ v ∉ seen) ∧ vs.Nodup := by
  induction vs generalizing seen with
  | nil => simp
  | cons v vs ih =>
    obtain ⟨x, atV, rest⟩ := bind_eq_ok.mp checked
    by_cases isInput : x.isInput
    swap
    · simp [isInput] at rest
    by_cases fresh : v ∈ seen
    · simp [isInput, fresh] at rest
    simp only [isInput, fresh, Bool.not_true, Bool.false_eq_true, ↓reduceIte,
      List.contains_iff_mem] at rest
    obtain ⟨each, distinct⟩ := ih rest
    have origin : x.origin = .input := by
      cases origin : x.origin with
      | input => rfl
      | _ => simp [Var.isInput, origin] at isInput
    refine ⟨?_, List.nodup_cons.mpr ⟨?_, distinct⟩⟩
    · intro u member
      rcases List.mem_cons.mp member with rfl | later
      · exact ⟨⟨x, Graph.var_eq_ok.mp atV, origin⟩, fresh⟩
      · exact ⟨(each u later).1, fun old => (each u later).2 (List.mem_cons_of_mem _ old)⟩
    · intro again
      exact (each v again).2 (by simp)

theorem checkUpdates_ok {g : Graph} {seen : List VarId} {us : List (VarId × VarId)}
    (checked : checkUpdates g seen us = .ok ()) :
    ∀ u ∈ us, ∃ x y c, g.vars[u.1]? = some x ∧ g.vars[u.2]? = some y ∧ x.origin = .shared c ∧
      x.ty.Alike y.ty := by
  induction us generalizing seen with
  | nil => simp
  | cons first us ih =>
    obtain ⟨target, value⟩ := first
    obtain ⟨x, atTarget, rest⟩ := bind_eq_ok.mp checked
    obtain ⟨y, atValue, rest⟩ := bind_eq_ok.mp rest
    by_cases isCell : x.cell?.isNone
    · simp [isCell] at rest
    by_cases again : target ∈ seen
    · simp [isCell, again] at rest
    by_cases kind : x.ty.kind = y.ty.kind
    swap
    · simp [isCell, again, kind] at rest
    by_cases rank : x.ty.rank = y.ty.rank
    swap
    · simp [isCell, again, kind, rank] at rest
    simp only [isCell, again, kind, rank, ne_eq, not_true_eq_false, Bool.false_eq_true, ↓reduceIte,
      List.contains_iff_mem] at rest
    intro u member
    rcases List.mem_cons.mp member with rfl | later
    · cases origin : x.origin with
      | shared c =>
        exact ⟨x, y, c, Graph.var_eq_ok.mp atTarget, Graph.var_eq_ok.mp atValue, origin,
          kind, rank⟩
      | _ => simp [Var.cell?, origin] at isCell
    · exact ih rest u later

theorem checkBound_ok {g : Graph} {inputs vs : List VarId}
    (checked : checkBound g inputs vs = .ok ()) :
    ∀ v ∈ vs, ∀ x, g.vars[v]? = some x → x.isInput → v ∈ inputs := by
  induction vs with
  | nil => simp
  | cons v vs ih =>
    obtain ⟨y, atV, rest⟩ := bind_eq_ok.mp checked
    split at rest
    · cases rest
    rename_i listed
    intro u member x atU isInput
    rcases List.mem_cons.mp member with rfl | later
    · obtain rfl : y = x := Option.some.inj ((Graph.var_eq_ok.mp atV).symm.trans atU)
      simpa [isInput] using listed
    · exact ih rest u later x atU isInput

/-- A program on a graph that its methods built is valid once it was accepted. -/
theorem valid_of_validate {p : Program} {d : Discipline} (sound : p.graph.Sound d)
    (accepted : p.validate = .ok ()) : p.Valid d := by
  obtain ⟨⟨⟩, -, rest⟩ := bind_eq_ok.mp accepted
  split at rest
  · cases rest
  obtain ⟨⟨⟩, known, rest⟩ := bind_eq_ok.mp rest
  obtain ⟨⟨⟩, inputs, rest⟩ := bind_eq_ok.mp rest
  obtain ⟨⟨⟩, updates, bound⟩ := bind_eq_ok.mp rest
  have knownVar : ∀ v ∈ p.outputs ++ p.inputs, v < p.graph.vars.size := by
    intro v member
    have found := forM_eq_ok.mp known v member
    cases atV : p.graph.var v with
    | ok x => exact (Array.getElem?_eq_some_iff.mp (Graph.var_eq_ok.mp atV)).1
    | error e => simp [atV, discard, Functor.discard, Functor.mapConst, Except.map] at found
  refine ⟨sound, fun v member => ((checkInputs_ok inputs).1 v member).1, (checkInputs_ok inputs).2,
    fun v member => knownVar v (List.mem_append_left _ member), fun u member => ?_, ?_⟩
  · obtain ⟨x, y, c, atTarget, atValue, origin, alike⟩ := checkUpdates_ok updates u member
    exact ⟨x, y, c, atTarget, atValue, origin, fun _ => alike⟩
  · intro v x wanted atV isInput
    refine checkBound_ok bound v ?_ x atV isInput
    rcases wanted with root | ⟨n, live, reads⟩
    · exact List.mem_append_right _ root
    · exact List.mem_append_left _ (List.mem_flatMap.mpr ⟨n, live, reads⟩)

/-- The leaves of a program bound to arguments and to the values of persistent values. -/
def bind (p : Program) (ts : List Tensor) (cells : Array Tensor) : Binding where
  input v := (p.inputs.idxOf? v).bind fun i => ts[i]?
  cells := cells

/-- The value of a variable of a program, with the same kernel options everywhere. -/
def value [BlockRoutine] (p : Program) (math : MathMode) (ts : List Tensor) (cells : Array Tensor) (v : VarId) :
    Option Tensor := p.graph.value (fun _ => math) (p.bind ts cells) v

/-- The persistent value behind a variable. -/
def cellOf (p : Program) (v : VarId) : Option Cell := p.graph.vars[v]?.bind Var.cell?

/-- The kind and rank of a variable. -/
def typeOf (p : Program) (v : VarId) : Option (Kind × Nat) :=
  p.graph.vars[v]?.map fun x => (x.ty.kind, x.ty.rank)

/-- The arguments have the kinds and ranks of the inputs. -/
def Takes (p : Program) (ts : List Tensor) : Prop :=
  p.inputs.map p.typeOf = ts.map fun t => some (t.kind, t.rank)

theorem Takes.length_eq {p : Program} {ts : List Tensor} (takes : p.Takes ts) :
    p.inputs.length = ts.length := by
  have lengths := congrArg List.length takes
  simpa using lengths

/-- Arguments and persistent values of the right types have the types of the leaves. -/
theorem Valid.binds {p : Program} {d : Discipline} (valid : p.Valid d) {ts : List Tensor}
    {cells : Array Tensor} (takes : p.Takes ts) (typed : ∀ c, d.cell c → c.Typed cells) :
    p.graph.Binds (p.bind ts cells) where
  input {v x t} atV _ bound := by
    obtain ⟨i, position, atI⟩ := Option.bind_eq_some_iff.mp bound
    obtain ⟨inInputs, same, -⟩ := List.idxOf?_eq_some_iff.mp position
    have typeHere := congrArg (fun types => types[i]?) takes
    simp only [List.getElem?_map, atI, Option.map_some, List.getElem?_eq_getElem inInputs] at typeHere
    have here : p.inputs[i] = v := by simpa using same
    rw [here] at typeHere
    simp only [typeOf, atV, Option.map_some, Option.some.injEq, Prod.mk.injEq] at typeHere
    exact ⟨typeHere.1.symm, typeHere.2.symm⟩
  cell {v x c} atV origin := by
    have fits := valid.graph.leaf atV
    rw [Var.Fits, origin] at fits
    obtain ⟨kind, rank⟩ := typed c fits.2.1
    exact ⟨kind.trans fits.2.2.1, rank.trans fits.2.2.2⟩

/-- Two programs update the same persistent values, and have as many results. -/
structure SameInterface (p q : Program) : Prop where
  inputs : p.inputs.map p.typeOf = q.inputs.map q.typeOf
  outputs : p.outputs.length = q.outputs.length
  updates : p.updates.map (fun u => p.cellOf u.1) = q.updates.map fun u => q.cellOf u.1

theorem SameInterface.refl (p : Program) : p.SameInterface p := ⟨rfl, rfl, rfl⟩

theorem SameInterface.symm {p q : Program} (same : p.SameInterface q) : q.SameInterface p :=
  ⟨same.inputs.symm, same.outputs.symm, same.updates.symm⟩

theorem SameInterface.takes {p q : Program} (same : p.SameInterface q) {ts : List Tensor}
    (takes : p.Takes ts) : q.Takes ts := same.inputs.symm.trans takes

theorem SameInterface.trans {p q r : Program} (first : p.SameInterface q)
    (second : q.SameInterface r) : p.SameInterface r :=
  ⟨first.inputs.trans second.inputs, first.outputs.trans second.outputs,
    first.updates.trans second.updates⟩

/-- Two programs take, give and update values of the same kinds and ranks, in the same order. -/
structure SameTypes (p q : Program) : Prop where
  inputs : p.inputs.map p.typeOf = q.inputs.map q.typeOf
  outputs : p.outputs.map p.typeOf = q.outputs.map q.typeOf
  updates : p.updates.map (fun u => (p.cellOf u.1, p.typeOf u.2)) =
    q.updates.map fun u => (q.cellOf u.1, q.typeOf u.2)

theorem SameTypes.refl (p : Program) : p.SameTypes p := ⟨rfl, rfl, rfl⟩

theorem SameTypes.trans {p q r : Program} (first : p.SameTypes q) (second : q.SameTypes r) : p.SameTypes r :=
  ⟨first.inputs.trans second.inputs, first.outputs.trans second.outputs, first.updates.trans second.updates⟩

variable [BlockRoutine]

/-- Two programs have the same results and the same new values. -/
def SameValues (p q : Program) (math : MathMode) (ts : List Tensor) (cells : Array Tensor) : Prop :=
  p.roots.map (p.value math ts cells) = q.roots.map (q.value math ts cells)

theorem SameValues.refl (p : Program) (math : MathMode) (ts : List Tensor) (cells : Array Tensor) :
    p.SameValues p math ts cells := rfl

theorem SameValues.trans {p q r : Program} {math : MathMode} {ts : List Tensor}
    {cells : Array Tensor} (first : p.SameValues q math ts cells)
    (second : q.SameValues r math ts cells) : p.SameValues r math ts cells :=
  Eq.trans first second

/-- No operation that is computed has sizes that overflow, or a result that no memory has room for. -/
def Calm (p : Program) (math : MathMode) (ts : List Tensor) (cells : Array Tensor) : Prop :=
  ∀ n ∈ p.liveNodes, n.op.Calm (n.inputs.mapM (p.value math ts cells))

/-- What an evaluation may break off with: extents that do not agree, or, where sizes overflow, a crash. -/
def BreaksOff (p : Program) (math : MathMode) (ts : List Tensor) (cells : Array Tensor) (e : Error) : Prop :=
  e.IsShape ∨ e = .crash ∧ ¬ p.Calm math ts cells

variable {p q : Program} {math : MathMode} {ts : List Tensor} {cells : Array Tensor} {e : Error}

/-- What breaks off where sizes overflow later does so where they overflow before. -/
theorem BreaksOff.mono (breaks : q.BreaksOff math ts cells e) (calm : p.Calm math ts cells → q.Calm math ts cells) :
    p.BreaksOff math ts cells e := breaks.imp id (And.imp id (mt calm))

/-- Where an operation does not get its extents, an evaluation breaks off. -/
theorem breaksOff_of_node {n : Node} {us : List Tensor} (live : n ∈ p.liveNodes)
    (operands : n.inputs.mapM (p.value math ts cells) = some us)
    (refused : n.op.resultShape (us.map Tensor.shape) = .error e) : p.BreaksOff math ts cells e := by
  rcases Op.resultShape_error refused with isShape | rfl
  · exact .inl isShape
  · exact .inr ⟨rfl, fun calm => calm n live us operands refused⟩

end Program

end TensorGraph
