import TensorGraph.Graph.Apply
import TensorGraph.Proofs.Graph.Sound

/-! Graphs as their methods build them are well formed, also after additions that were refused. -/
namespace TensorGraph

open Checked

/-- What a program is made of: its operations with the kinds of their operands, and its persistent
values. A condition on them is kept by all passes, as long as the kernels that fold constants give tensors of
the right types. -/
structure Scope where
  op : Op → Kind → Prop
  cell : Cell → Prop
  /-- Whether types are as the source has them. -/
  typed : Prop

namespace Scope

/-- No condition. -/
def any : Scope := ⟨fun _ _ => True, fun _ => True, True⟩

/-- What is asked of an operation on operands of a kind: a cast changes the kind. -/
def Allows (scope : Scope) (op : Op) (kind : Kind) : Prop :=
  scope.typed → op ≠ .cast kind ∧ scope.op op kind

end Scope

/-- What holds of operations as the methods of a graph add them: they have no place and no mark. -/
def Discipline.fresh (scope : Scope) : Discipline where
  op op tys place mark := place = none ∧ mark = none ∧ ∀ t ∈ tys, scope.Allows op t.kind
  leaf ty := ty.place = none
  cell := scope.cell
  typed := scope.typed

/-- The rules allow what the methods of a graph add: operations without place and mark, of which casts change the
kind. -/
structure Discipline.Admits (d : Discipline) : Prop where
  op : ∀ {op : Op} {tys : List Ty}, (∀ t ∈ tys, op ≠ .cast t.kind) → d.op op tys none none

theorem Discipline.admits_fresh : (Discipline.fresh .any).Admits where
  op changes := ⟨rfl, rfl, fun t member _ => ⟨changes t member, trivial⟩⟩

namespace Graph

/-- Graphs that calls of the methods lead to. -/
inductive Built : Graph → Prop where
  | empty (float : Kind) : Built (Graph.empty float)
  | input {g : Graph} (built : Built g) (ty : Ty) (name : Option String) : Built (g.input ty name).1
  | constant {g : Graph} (built : Built g) (t : Tensor) : Built (g.constant t).1
  | shared {g : Graph} (built : Built g) (c : Cell) : Built (g.shared c).1
  | apply {g : Graph} (built : Built g) (op : Op) (inputs : List VarId) :
    Built (g.apply op inputs).1

theorem push_admitted {g g' : Graph} {d : Discipline} (admits : d.Admits) (sound : g.Sound d) {op : Op}
    {inputs : List VarId} {v : VarId} (pushed : g.push op inputs none none = .ok (g', v))
    (changes : ∀ tys, g.Types inputs tys → ∀ t ∈ tys, op ≠ .cast t.kind) :
    g'.Sound d ∧ g.Grows g' := by
  obtain ⟨tys, ty, types, inferred, rfl, -⟩ := push_eq_ok.mp pushed
  exact ⟨sound.grown types inferred (admits.op (changes tys types)), grown_grows ..⟩

theorem castArgs_admitted {g : Graph} {d : Discipline} (admits : d.Admits) (sound : g.Sound d) (kind : Kind)
    {vs : List VarId} {tys : List Ty} (types : g.Types vs tys) :
    (g.castArgs kind vs tys).1.Sound d ∧ g.Grows (g.castArgs kind vs tys).1 := by
  induction vs generalizing g tys with
  | nil =>
    have done : g.castArgs kind [] tys = (g, .ok []) := by rw [castArgs]; rintro _ _ _ _ ⟨⟩
    rw [done]
    exact ⟨sound, .refl g⟩
  | cons v vs ih =>
    cases types with
    | @cons _ t _ tys head tail =>
      by_cases same : t.kind = kind
      · simp only [castArgs, same, ↓reduceIte]
        exact ih sound tail
      · simp only [castArgs, same, ↓reduceIte]
        cases pushed : g.push (.cast kind) [v] none none with
        | error e => exact ⟨sound, .refl g⟩
        | ok result =>
          obtain ⟨g', c⟩ := result
          have changes : ∀ tys, g.Types [v] tys → ∀ u ∈ tys, Op.cast kind ≠ .cast u.kind := by
            intro tys types u member equal
            cases types with
            | cons first none =>
              cases none
              obtain ⟨x, atX, rfl⟩ := first
              obtain ⟨y, atY, rfl⟩ := head
              obtain rfl : x = y := Option.some.inj (atX.symm.trans atY)
              rw [List.mem_singleton.mp member] at equal
              exact same (Op.cast.inj equal).symm
          obtain ⟨sound', grows⟩ := push_admitted admits sound pushed changes
          obtain ⟨soundAll, growsAll⟩ := ih sound' (grows.types tail)
          exact ⟨soundAll, grows.trans growsAll⟩

theorem operandTys_ok {g : Graph} {op : Op} {inputs : List VarId} {tys : List Ty}
    (ran : g.operandTys op inputs = .ok tys) : g.Types inputs tys ∧ inputs.length = op.arity := by
  unfold operandTys at ran
  split at ran
  · cases ran
  · rename_i count
    refine ⟨tys_eq_ok.mp ?_, not_not.mp count⟩
    cases found : g.tys inputs with
    | ok found' =>
      rw [found] at ran
      exact ran
    | error e => simp [found, Except.mapError] at ran

/-- The operand of a cast stays as it is. -/
theorem castArgs_cast {g : Graph} {k kind : Kind} {v : VarId} {t : Ty}
    (chosen : g.operandKind (.cast k) [t] = .ok kind) :
    g.castArgs kind [v] [t] = (g, .ok [v]) := by
  have same : t.kind = kind := by
    simpa [operandKind, resolveOperand, Op.needsFloat, Op.accepts, Op.typed, Except.mapError,
      Functor.map, Except.map] using chosen
  simp [castArgs, same, Functor.map, Except.map]

theorem add_admitted {g : Graph} {d : Discipline} (admits : d.Admits) (sound : g.Sound d) {op : Op}
    {inputs : List VarId} {tys : List Ty} (types : g.Types inputs tys)
    (count : inputs.length = op.arity)
    (changes : ∀ k, op = .cast k → ∀ t ∈ tys, k ≠ t.kind) :
    (apply.add g op inputs tys).1.Sound d := by
  unfold apply.add
  cases chosen : g.operandKind op tys with
  | error e => exact sound
  | ok kind =>
    obtain ⟨soundCast, grows⟩ := castArgs_admitted admits sound kind types
    simp only
    cases cast : g.castArgs kind inputs tys with
    | mk g' result =>
      rw [cast] at soundCast grows
      cases result with
      | error e => exact soundCast
      | ok args =>
        simp only
        cases pushed : g'.push op args none none with
        | error e => exact soundCast
        | ok added =>
          refine (push_admitted admits soundCast pushed fun tys' types' t member equal => ?_).1
          subst equal
          -- A cast has one operand, which is not cast itself.
          obtain ⟨v, rfl⟩ := List.length_eq_one_iff.mp count
          cases types with
          | @cons _ ty _ _ head tail =>
            cases tail
            rw [castArgs_cast chosen] at cast
            cases cast
            cases types' with
            | cons head' tail' =>
              cases tail'
              obtain ⟨x, atX, rfl⟩ := head
              obtain ⟨y, atY, rfl⟩ := head'
              obtain rfl : x = y := Option.some.inj (atX.symm.trans atY)
              rw [List.mem_singleton.mp member] at changes
              exact changes _ rfl x.ty (by simp) rfl

/-- Adding an operation keeps the rules, also when it is refused. -/
theorem Sound.apply {g : Graph} {d : Discipline} (admits : d.Admits) (sound : g.Sound d) (op : Op)
    (inputs : List VarId) : (g.apply op inputs).1.Sound d := by
  unfold Graph.apply
  cases typed : g.operandTys op inputs with
  | error e => exact sound
  | ok tys =>
    obtain ⟨types, count⟩ := operandTys_ok typed
    simp only
    split
    · rename_i k v vs t ts
      split
      · exact sound
      · rename_i differ
        refine add_admitted admits sound types count ?_
        rintro k' ⟨⟩ u member
        obtain rfl : vs = [] := by simpa [Op.arity] using count
        cases types with
        | cons head tail =>
          cases tail
          rw [List.mem_singleton.mp member]
          exact differ
    · rename_i notCast
      refine add_admitted admits sound types count ?_
      rintro k rfl t member
      obtain ⟨v, rfl⟩ := List.length_eq_one_iff.mp count
      cases types with
      | @cons _ ty _ _ head tail => exact absurd rfl (notCast k v [] ty _ rfl rfl)

/-- Every graph that calls of the methods lead to is well formed. -/
theorem Built.sound {g : Graph} (built : g.Built) : g.Sound (.fresh .any) := by
  induction built with
  | empty float => exact sound_empty float _
  | input _ ty name sound => exact sound.pushLeaf rfl rfl
  | constant _ t sound => exact sound.pushLeaf rfl ⟨rfl, rfl, rfl⟩
  | shared _ c sound => exact sound.pushLeaf rfl ⟨rfl, trivial, rfl, rfl⟩
  | apply _ op inputs sound => exact sound.apply Discipline.admits_fresh op inputs

/-- A condition that operations and persistent values satisfy becomes part of the discipline. -/
theorem Sound.fresh {g : Graph} (sound : g.Sound (.fresh .any)) {scope : Scope}
    (ops : ∀ {i : NodeId} {n : Node} {tys : List Ty}, g.nodes[i]? = some n →
      g.Types n.inputs tys → ∀ t ∈ tys, scope.op n.op t.kind)
    (cells : ∀ {v : VarId} {x : Var} {c : Cell}, g.vars[v]? = some x → x.origin = .shared c →
      scope.cell c) : g.Sound (.fresh scope) where
  node {i n} at_ := by
    obtain ⟨id, output, reads, tys, ty, x, types, inferred, atOutput, placed, none, bare, changes⟩ :=
      sound.node at_
    exact ⟨id, output, reads, tys, ty, x, types, inferred, atOutput, placed, none, bare,
      fun t member _ => ⟨(changes t member trivial).1, ops at_ types t member⟩⟩
  produced := sound.produced
  ordered := sound.ordered
  leaf {v x} atV := by
    have fits := sound.leaf atV
    unfold Var.Fits at fits ⊢
    cases origin : x.origin with
    | shared c =>
      rw [origin] at fits
      exact ⟨fits.1, cells atV origin, fits.2.2⟩
    | _ =>
      rw [origin] at fits
      exact fits

end Graph

end TensorGraph
