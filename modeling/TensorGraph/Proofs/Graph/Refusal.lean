import TensorGraph.Proofs.Graph.Promotion

/-! Operations that cannot be added. The error is about the operation, and operands are cast only after everything that
can be wrong has been looked at, but for the axis of a mean. -/
namespace TensorGraph

open Checked

/-- The error tells why the operation cannot be added: its arity, ranks or references, or an element kind. -/
def Error.Refuses (op : Op) (e : Error) : Prop :=
  ∃ reason, e = .construction op.name reason ∨ e = .type op.name reason

/-- The second type has a kind and the rank of the first one. -/
def Ty.Recast (kind : Kind) (t t' : Ty) : Prop := t'.kind = kind ∧ t'.rank = t.rank

section Reasons

variable {op : Op} {e : Error}

theorem Op.typed_eq_error {α : Type} {r : Except String α} (failed : op.typed r = .error e) : e.Refuses op := by
  cases r with
  | ok a => cases failed
  | error reason =>
    cases failed
    exact ⟨reason, .inr rfl⟩

theorem foldRank_eq_error {rank : Nat} {rest : List Ty} (failed : foldRank op rank rest = .error e) :
    e.Refuses op := by
  induction rest generalizing rank with
  | nil => cases failed
  | cons t rest ih =>
    rw [foldRank] at failed
    split at failed
    · exact ih failed
    · cases failed
      exact ⟨_, .inl rfl⟩

theorem Op.inferRank_eq_error {first : Ty} {rest : List Ty} (count : (first :: rest).length = op.arity)
    (failed : op.inferRank first rest = .error e) : e.Refuses op := by
  cases op with
  | unary | cast | toDevice | toHost | reshape => cases failed
  | binary | fused => exact foldRank_eq_error failed
  | reduce f axis =>
    cases axis with
    | none => cases failed
    | some axis =>
      rw [inferRank] at failed
      split at failed <;> cases failed
      exact ⟨_, .inl rfl⟩
  | matmul =>
    cases rest with
    | nil => cases count
    | cons second rest =>
      simp only [inferRank] at failed
      split at failed <;> cases failed
      exact ⟨_, .inl rfl⟩
  | transpose perm =>
    rw [inferRank] at failed
    split at failed <;> cases failed
    exact ⟨_, .inl rfl⟩

theorem Op.infer_eq_error {tys : List Ty} (count : tys.length = op.arity) (some : tys ≠ [])
    (failed : op.infer tys = .error e) : e.Refuses op := by
  simp only [infer, if_neg (not_not.mpr count)] at failed
  cases tys with
  | nil => exact absurd rfl some
  | cons first rest =>
    simp only at failed
    split at failed
    · cases failed
      exact ⟨_, .inr rfl⟩
    rcases bind_eq_error.mp failed with unaccepted | ⟨-, -, failed⟩
    · exact typed_eq_error unaccepted
    rcases bind_eq_error.mp failed with unranked | ⟨rank, -, failed⟩
    · exact inferRank_eq_error count unranked
    · cases failed

theorem resolve_eq_error {a b : Ty} (failed : resolve a b op none = .error e) : e.Refuses op := by
  simp only [resolve] at failed
  split at failed
  · rcases bind_eq_error.mp failed with unaccepted | ⟨-, -, failed⟩
    · exact Op.typed_eq_error unaccepted
    · cases failed
  · cases failed
    exact ⟨_, .inl rfl⟩

theorem resolveAll_eq_error {first : Ty} {rest : List Ty} (failed : Graph.resolveAll op first rest = .error e) :
    e.Refuses op := by
  induction rest generalizing first with
  | nil => cases failed
  | cons t rest ih =>
    rcases bind_eq_error.mp failed with here | ⟨joined, -, later⟩
    · exact resolve_eq_error here
    · exact ih later

theorem resolveOperand_eq_error {a : Ty} {float : Kind} (failed : resolveOperand a op float = .error e) :
    e.Refuses op := by
  rcases bind_eq_error.mp failed with unaccepted | ⟨-, -, failed⟩
  · exact Op.typed_eq_error unaccepted
  · cases failed

end Reasons

section Resolved

/-- What two operands that meet in a type were checked for. -/
theorem resolve_eq_ok {op : Op} {a b ty : Ty} (resolved : resolve a b op none = .ok ty) :
    op.accepts ty.kind = .ok () ∧ (op.capability = .elementwise → broadcastRank? a.rank b.rank = some ty.rank) ∧
      (op.capability = .linearAlgebra → a.rank = b.rank ∧ (a.rank = 2 ∨ a.rank = 3)) := by
  simp only [resolve] at resolved
  split at resolved
  · rename_i rank ranked
    obtain ⟨⟨⟩, accepted, resolved⟩ := bind_eq_ok.mp resolved
    cases resolved
    refine ⟨Op.typed_eq_ok.mp accepted, fun elementwise => ?_, fun linear => ?_⟩
    · rwa [elementwise] at ranked
    · rw [linear] at ranked
      simp only at ranked
      split at ranked
      · assumption
      · cases ranked
  · cases resolved

/-- Elementwise operands that meet one after the other in a type have ranks that go together. -/
theorem foldRank_of_resolveAll {op : Op} (elementwise : op.capability = .elementwise) {first ty : Ty}
    {rest rest' : List Ty} {kind : Kind} (resolved : Graph.resolveAll op first rest = .ok ty)
    (recast : List.Forall₂ (Ty.Recast kind) rest rest') : foldRank op first.rank rest' = .ok ty.rank := by
  induction recast generalizing first with
  | nil =>
    cases resolved
    rfl
  | cons here _ ih =>
    obtain ⟨joined, met, later⟩ := bind_eq_ok.mp resolved
    rw [foldRank, here.2, (resolve_eq_ok met).2.1 elementwise]
    exact ih later

/-- The kind in which several operands meet is one that the operation accepts. -/
theorem accepts_of_resolveAll {op : Op} {first ty : Ty} {rest : List Ty} (several : rest ≠ [])
    (resolved : Graph.resolveAll op first rest = .ok ty) : op.accepts ty.kind = .ok () := by
  induction rest generalizing first with
  | nil => exact absurd rfl several
  | cons t rest ih =>
    obtain ⟨joined, met, later⟩ := bind_eq_ok.mp resolved
    cases rest with
    | nil =>
      cases later
      exact (resolve_eq_ok met).1
    | cons u rest => exact ih (by simp) later

/-- Inference passes on operands of one kind that the operation accepts, when their ranks go together. -/
theorem Op.infer_recast {op : Op} {kind : Kind} {first first' : Ty} {rest rest' : List Ty} {rank : Nat}
    (count : (first :: rest).length = op.arity)
    (recast : List.Forall₂ (Ty.Recast kind) (first :: rest) (first' :: rest'))
    (accepted : op.accepts kind = .ok ()) (ranked : op.inferRank first' rest' = .ok rank) :
    ∃ ty, op.infer (first' :: rest') = .ok ty := by
  have oneKind : ∀ t ∈ first' :: rest', t.kind = kind := by
    intro t member
    obtain ⟨u, -, same, -⟩ := partner_of recast member
    exact same
  have atFirst := oneKind first' (by simp)
  let ty : Ty := ⟨op.resultKind first'.kind, rank, none⟩
  refine ⟨ty, Op.infer_eq_ok.mpr ⟨first', rest', rfl, ?_, ?_, ?_, ranked, rfl, rfl⟩⟩
  · rw [← recast.length_eq, count]
  · intro t member
    rw [oneKind t member, atFirst]
  · rw [atFirst, accepted]

theorem Op.infer_mean_outside {kind : Kind} (float : kind.isFloat) {rank axis : Nat} (outside : rank ≤ axis) :
    (Op.reduce .mean (some axis)).infer [{ kind, rank }] =
      .error (.construction "mean" s!"axis {axis} out of range for rank {rank}") := by
  have unranked : (Op.reduce .mean (some axis)).inferRank { kind, rank } [] =
      .error (.construction "mean" s!"axis {axis} out of range for rank {rank}") := if_neg (Nat.not_lt.mpr outside)
  simp [Op.infer, Op.arity, Op.typed, Op.accepts, float, Except.mapError, unranked]

end Resolved

namespace Graph

variable {g : Graph} {op : Op} {inputs : List VarId}

/-- A mean along an axis that an integer operand does not have. -/
inductive LacksAxis (g : Graph) : Op → List VarId → Prop where
  | mean {axis : Nat} {v : VarId} {t : Ty} (typed : g.ty v = .ok t) (integer : t.kind.isFloat = false)
    (float : g.float.isFloat) (outside : t.rank ≤ axis) : LacksAxis g (.reduce .mean (some axis)) [v]

/-- The common kind of several operands of which one is cast is right for the operation. -/
theorem infer_jointly {first : Ty} {rest tys' : List Ty} {kind : Kind} (joint : op.isJoint)
    (count : (first :: rest).length = op.arity) (chosen : g.operandKind op (first :: rest) = .ok kind)
    (recast : List.Forall₂ (Ty.Recast kind) (first :: rest) tys') (casts : ∃ t ∈ first :: rest, t.kind ≠ kind) :
    ∃ ty, op.infer tys' = .ok ty := by
  rw [operandKind_joint joint] at chosen
  obtain ⟨ty, resolved, rfl⟩ := map_eq_ok.mp chosen
  have several : rest ≠ [] := by
    rintro rfl
    cases resolved
    simp at casts
  have accepted := accepts_of_resolveAll several resolved
  obtain ⟨first', rest', here, later, rfl⟩ := List.forall₂_cons_left_iff.mp recast
  have elementwise (inRank : op.inferRank first' rest' = foldRank op first'.rank rest')
      (kindOfWork : op.capability = .elementwise) : ∃ ty, op.infer (first' :: rest') = .ok ty := by
    have ranked : op.inferRank first' rest' = .ok ty.rank := by
      rw [inRank, here.2]
      exact foldRank_of_resolveAll kindOfWork resolved later
    exact Op.infer_recast count recast accepted ranked
  cases op with
  | binary f => exact elementwise rfl rfl
  | fused e => exact elementwise rfl rfl
  | matmul =>
    cases later with
    | nil => exact absurd rfl several
    | cons next last =>
      obtain ⟨joined, met, -⟩ := bind_eq_ok.mp resolved
      have square := (resolve_eq_ok met).2.2 rfl
      rw [← here.2, ← next.2] at square
      exact Op.infer_recast count recast accepted (if_pos square)
  | _ => cases joint

/-- A single operand is cast to the default float only, for a transcendental function or for a mean. -/
theorem infer_alone {t t' : Ty} {kind : Kind} (alone : op.isJoint = false)
    (chosen : g.operandKind op [t] = .ok kind) (recast : t.Recast kind t') (casts : t.kind ≠ kind) :
    (∃ ty, op.infer [t'] = .ok ty) ∨ ∃ axis, op = .reduce .mean (some axis) ∧ t.kind.isFloat = false ∧
      g.float.isFloat ∧ t.rank ≤ axis := by
  rw [operandKind_alone alone] at chosen
  obtain ⟨ty, resolved, rfl⟩ := map_eq_ok.mp chosen
  obtain ⟨⟨⟩, accepted, resolved⟩ := bind_eq_ok.mp resolved
  cases resolved
  split at casts
  · rename_i toFloat
    rw [if_pos toFloat] at accepted recast
    obtain ⟨needs, integer⟩ : op.needsFloat ∧ t.kind.isFloat = false := by simpa using toFloat
    have count : [t].length = op.arity := (Op.arity_alone alone).symm
    have accepted := Op.typed_eq_ok.mp accepted
    cases op with
    | unary f => exact .inl (Op.infer_recast count (.cons recast .nil) accepted rfl)
    | reduce f axis =>
      cases f with
      | mean =>
        cases axis with
        | none => exact .inl (Op.infer_recast count (.cons recast .nil) accepted rfl)
        | some axis =>
          by_cases inRange : axis < t'.rank
          · exact .inl (Op.infer_recast count (.cons recast .nil) accepted (if_pos inRange))
          · refine .inr ⟨axis, rfl, integer, ?_, ?_⟩
            · by_contra notFloat
              rw [Op.accepts, if_neg notFloat] at accepted
              cases accepted
            · rw [← recast.2]
              exact Nat.le_of_not_lt inRange
      | _ => cases needs
    | _ => cases needs
  · exact absurd rfl casts

/-- A cast of a variable can always be added. -/
theorem push_cast (kind : Kind) {v : VarId} {t : Ty} (typed : g.ty v = .ok t) :
    g.push (.cast kind) [v] none none =
      .ok (g.grown (.cast kind) [v] { kind, rank := t.rank } none none, g.vars.size) :=
  push_eq_ok.mpr ⟨[t], _, .cons (ty_eq_ok.mp typed) .nil, rfl, rfl, rfl⟩

theorem castArgs_same {kind : Kind} {tys : List Ty} (types : g.Types inputs tys) (same : ∀ t ∈ tys, t.kind = kind) :
    g.castArgs kind inputs tys = (g, .ok inputs) := by
  induction types with
  | nil =>
    rw [castArgs]
    rintro _ _ _ _ ⟨⟩
  | cons _ _ ih =>
    obtain ⟨here, later⟩ := List.forall_mem_cons.mp same
    simp only [castArgs, here, ↓reduceIte, ih later]
    rfl

/-- Casting the operands never fails, and changes their kinds only. -/
theorem castArgs_recasts (kind : Kind) {tys : List Ty} (types : g.Types inputs tys) :
    ∃ g' args tys', g.castArgs kind inputs tys = (g', .ok args) ∧ g'.Types args tys' ∧
      List.Forall₂ (Ty.Recast kind) tys tys' := by
  suffices ∃ g' args tys', g.castArgs kind inputs tys = (g', .ok args) ∧ g.Grows g' ∧ g'.Types args tys' ∧
      List.Forall₂ (Ty.Recast kind) tys tys' by
    obtain ⟨g', args, tys', ran, -, types', recast⟩ := this
    exact ⟨g', args, tys', ran, types', recast⟩
  induction inputs generalizing g tys with
  | nil =>
    cases types
    exact ⟨g, [], [], castArgs_same .nil (by simp), .refl g, .nil, .nil⟩
  | cons v vs ih =>
    cases types with
    | @cons _ t _ ts head tail =>
      by_cases same : t.kind = kind
      · obtain ⟨g', args, ts', ran, grows, types', recast⟩ := ih tail
        obtain ⟨x, atV, typed⟩ := head
        have atV' := grows.vars atV
        refine ⟨g', v :: args, t :: ts', ?_, grows, .cons ⟨x, atV', typed⟩ types', .cons ⟨same, rfl⟩ recast⟩
        simp only [castArgs, same, ↓reduceIte, ran]
        rfl
      · have grew := grown_grows g (.cast kind) [v] { kind, rank := t.rank } none none
        obtain ⟨g', args, ts', ran, grows, types', recast⟩ := ih (grew.types tail)
        refine ⟨g', g.vars.size :: args, { kind, rank := t.rank } :: ts', ?_, grew.trans grows, ?_,
          .cons ⟨rfl, rfl⟩ recast⟩
        · simp only [castArgs, same, ↓reduceIte, push_cast kind (ty_eq_ok.mpr head), ran]
          rfl
        · exact .cons ⟨_, grows.vars Array.getElem?_push_size, rfl⟩ types'

theorem var_eq_error {v : VarId} {e : Error} (failed : g.var v = .error e) :
    e = .construction "graph" ("unknown variable " ++ varName v) := by
  unfold var at failed
  split at failed <;> cases failed
  rfl

theorem tys_eq_error {e : Error} (failed : g.tys inputs = .error e) : ∃ reason, e = .construction "graph" reason := by
  induction inputs with
  | nil => cases failed
  | cons v vs ih =>
    rcases bind_eq_error.mp failed with here | ⟨t, -, failed⟩
    · cases found : g.var v with
      | ok x =>
        rw [ty, found] at here
        cases here
      | error e' =>
        rw [ty, found] at here
        cases here
        exact ⟨_, var_eq_error found⟩
    rcases bind_eq_error.mp failed with later | ⟨ts, -, failed⟩
    · exact ih later
    · cases failed

theorem operandTys_eq_error {e : Error} (failed : g.operandTys op inputs = .error e) : e.Refuses op := by
  unfold operandTys at failed
  split at failed
  · cases failed
    exact ⟨_, .inl rfl⟩
  · cases found : g.tys inputs with
    | ok tys =>
      rw [found] at failed
      cases failed
    | error e' =>
      obtain ⟨reason, rfl⟩ := tys_eq_error found
      rw [found] at failed
      cases failed
      exact ⟨reason, .inl rfl⟩

theorem operandKind_eq_error {tys : List Ty} {e : Error} (some : tys ≠ [])
    (failed : g.operandKind op tys = .error e) : e.Refuses op := by
  have ofMap {r : Except Error Ty} (failed : Ty.kind <$> r = .error e) : r = .error e := by
    cases r with
    | ok ty => cases failed
    | error e' =>
      cases failed
      rfl
  cases tys with
  | nil => exact absurd rfl some
  | cons first rest =>
    cases shape : op.isJoint with
    | true =>
      rw [operandKind_joint shape] at failed
      exact resolveAll_eq_error (ofMap failed)
    | false =>
      rw [operandKind_alone shape] at failed
      exact resolveOperand_eq_error (ofMap failed)

/-- How an operation was refused, with the graph that was left. -/
inductive Refusal (g : Graph) (op : Op) (inputs : List VarId) : Graph → Error → Prop where
  | unchanged {e : Error} (reason : e.Refuses op) : Refusal g op inputs g e
  /-- An expression without inputs has no first operand. -/
  | noOperand (count : op.arity = 0) (none : inputs = []) : Refusal g op inputs g .crash
  | castLeft {g' : Graph} {e : Error} (lacks : g.LacksAxis op inputs) (reason : e.Refuses op) : Refusal g op inputs g' e

/-- An operation is refused after a cast of its operands for the axis of a mean only. -/
theorem lacksAxis_of_casts {tys tys' : List Ty} {kind : Kind} {e : Error} (types : g.Types inputs tys)
    (count : inputs.length = op.arity) (chosen : g.operandKind op tys = .ok kind)
    (recast : List.Forall₂ (Ty.Recast kind) tys tys') (casts : ∃ t ∈ tys, t.kind ≠ kind)
    (failed : op.infer tys' = .error e) : g.LacksAxis op inputs := by
  have countTys : tys.length = op.arity := by rw [← types.length_eq, count]
  cases shape : op.isJoint with
  | true =>
    obtain ⟨first, rest, rfl⟩ : ∃ first rest, tys = first :: rest := by
      obtain ⟨t, member, -⟩ := casts
      exact List.exists_cons_of_ne_nil (List.ne_nil_of_mem member)
    obtain ⟨ty, inferred⟩ := infer_jointly shape countTys chosen recast casts
    rw [failed] at inferred
    cases inferred
  | false =>
    rw [Op.arity_alone shape] at countTys count
    obtain ⟨t, rfl⟩ := List.length_eq_one_iff.mp countTys
    obtain ⟨v, rfl⟩ := List.length_eq_one_iff.mp count
    obtain ⟨t', rfl⟩ := List.length_eq_one_iff.mp (recast.length_eq.symm.trans countTys)
    cases recast with
    | cons here _ =>
      rcases infer_alone shape chosen here (by simpa using casts) with
        ⟨ty, inferred⟩ | ⟨axis, rfl, integer, float, outside⟩
      · rw [failed] at inferred
        cases inferred
      · exact .mean types.at integer float outside

theorem add_refusal {tys : List Ty} {g' : Graph} {e : Error} (types : g.Types inputs tys)
    (count : inputs.length = op.arity) (refused : apply.add g op inputs tys = (g', .error e)) :
    g.Refusal op inputs g' e := by
  have countTys : tys.length = op.arity := by rw [← types.length_eq, count]
  unfold apply.add at refused
  split at refused
  · rename_i e' unresolved
    cases refused
    cases tys with
    | nil =>
      cases unresolved
      exact .noOperand countTys.symm (List.length_eq_zero_iff.mp types.length_eq)
    | cons => exact .unchanged (operandKind_eq_error (by simp) unresolved)
  rename_i kind chosen
  have some : tys ≠ [] := by
    rintro rfl
    cases chosen
  obtain ⟨between, args, tys', cast, types', recast⟩ := castArgs_recasts kind types
  rw [cast] at refused
  simp only at refused
  split at refused
  swap
  · cases refused
  rename_i e' failed
  cases refused
  have failed : op.infer tys' = .error e := by
    rwa [push, tys_eq_ok.mpr types', ok_bind, bind_eq_error, or_iff_left (by simp)] at failed
  have reason : e.Refuses op := by
    refine Op.infer_eq_error (by rw [← recast.length_eq, countTys]) ?_ failed
    rintro rfl
    cases recast
    exact some rfl
  by_cases casts : ∃ t ∈ tys, t.kind ≠ kind
  · exact .castLeft (lacksAxis_of_casts types count chosen recast casts failed) reason
  · rw [castArgs_same types (by simpa using casts)] at cast
    cases cast
    exact .unchanged reason

theorem apply_refusal {g' : Graph} {e : Error} (refused : g.apply op inputs = (g', .error e)) :
    g.Refusal op inputs g' e := by
  unfold Graph.apply at refused
  split at refused
  · rename_i untyped
    cases refused
    exact .unchanged (operandTys_eq_error untyped)
  rename_i tys typed
  obtain ⟨types, count⟩ := operandTys_ok typed
  split at refused
  · split at refused
    · cases refused
    · exact add_refusal types count refused
  · exact add_refusal types count refused

/-- The cast is added first, and the axis is looked at after it. -/
theorem apply_lacksAxis (lacks : g.LacksAxis op inputs) :
    ∃ grown e, g.push (.cast g.float) inputs none none = .ok (grown, g.vars.size) ∧
      g.apply op inputs = (grown, .error e) := by
  obtain ⟨typed, integer, float, outside⟩ := lacks
  rename_i axis v t
  have pushed := push_cast g.float typed
  have other : t.kind ≠ g.float := by
    intro same
    rw [same, float] at integer
    cases integer
  have typedAll : g.operandTys (.reduce .mean (some axis)) [v] = .ok [t] := by
    simp [operandTys, Op.arity, tys, typed, Except.mapError]
  have chosen : g.operandKind (.reduce .mean (some axis)) [t] = .ok g.float := by
    simp [operandKind, resolveOperand, Op.needsFloat, integer, Op.accepts, float, Op.typed, Except.mapError,
      Functor.map, Except.map]
  let grown := g.grown (.cast g.float) [v] { kind := g.float, rank := t.rank } none none
  have retyped : grown.tys [g.vars.size] = .ok [{ kind := g.float, rank := t.rank }] :=
    tys_eq_ok.mpr (.cons ⟨_, Array.getElem?_push_size, rfl⟩ .nil)
  have cast : g.castArgs g.float [v] [t] = (grown, .ok [g.vars.size]) := by
    simp only [castArgs, if_neg other, pushed]
    rfl
  have outOfRange := Op.infer_mean_outside float outside
  refine ⟨grown, .construction "mean" s!"axis {axis} out of range for rank {t.rank}", pushed, ?_⟩
  simp only [apply, typedAll, apply.add, chosen, cast, push, retyped, ok_bind, outOfRange, error_bind]

/-- A refused operation leaves the graph as it was, unless it is a mean along an axis that an integer operand lacks:
then the cast of the operand stays in the graph. -/
theorem refused_keeps_graph {g' : Graph} {e : Error} (refused : g.apply op inputs = (g', .error e)) :
    (g' = g ↔ ¬ g.LacksAxis op inputs) ∧
      (g.LacksAxis op inputs → g.push (.cast g.float) inputs none none = .ok (g', g.vars.size)) := by
  have left (lacks : g.LacksAxis op inputs) : g.push (.cast g.float) inputs none none = .ok (g', g.vars.size) := by
    obtain ⟨grown, e', pushed, ran⟩ := apply_lacksAxis lacks
    rw [refused] at ran
    cases ran
    exact pushed
  refine ⟨⟨fun same lacks => ?_, fun has => ?_⟩, left⟩
  · obtain ⟨_, ty, _, _, grew, _⟩ := push_eq_ok.mp (left lacks)
    have size : g'.vars.size = g.vars.size + 1 := by
      rw [grew]
      exact Array.size_push _
    rw [same] at size
    omega
  · cases apply_refusal refused with
    | unchanged => rfl
    | noOperand => rfl
    | castLeft lacks => exact absurd lacks has

/-- A vector of integers. -/
def integerVector : Graph := ((empty .f32).input { kind := .i32, rank := 1 } none).1

theorem refused_keeps_graph_integerVector :
    (integerVector.apply (.reduce .sum (some 5)) [0]).1 = integerVector ∧
      integerVector.push (.cast .f32) [0] none none =
        .ok ((integerVector.apply (.reduce .mean (some 5)) [0]).1, 1) := by
  have noSum : integerVector.apply (.reduce .sum (some 5)) [0] = (_, .error _) := rfl
  have noMean : integerVector.apply (.reduce .mean (some 5)) [0] = (_, .error _) := rfl
  refine ⟨(refused_keeps_graph noSum).1.mpr nofun, (refused_keeps_graph noMean).2 (.mean rfl rfl rfl ?_)⟩
  decide

/-- A mean that is refused for its axis leaves one operation more in the graph. -/
theorem refused_mean_keeps_cast :
    integerVector.Built ∧
      (integerVector.apply (.reduce .mean (some 5)) [0]).2 =
        .error (.construction "mean" "axis 5 out of range for rank 1") ∧
      integerVector.nodes = #[] ∧
      (integerVector.apply (.reduce .mean (some 5)) [0]).1.nodes =
        #[{ id := 0, op := .cast .f32, inputs := [0], output := 1, place := none, inPlace := none }] :=
  ⟨(Built.empty .f32).input _ none, rfl, rfl, rfl⟩

/-- An operation that is not added gives an error about it; only an expression without inputs and operands reads an
operand that is not there. -/
theorem apply_answers (g : Graph) (op : Op) (inputs : List VarId) :
    (∀ e, (g.apply op inputs).2 = .error e → e.Refuses op ∨ e = .crash) ∧
      ((g.apply op inputs).2 = .error .crash ↔ (∃ x : Expr, op = .fused x ∧ x.inputs = 0) ∧ inputs = []) := by
  have refusal {e : Error} (refused : (g.apply op inputs).2 = .error e) : ∃ g', g.Refusal op inputs g' e :=
    ⟨_, apply_refusal (Prod.ext rfl refused)⟩
  refine ⟨fun e refused => ?_, fun crashed => ?_, ?_⟩
  · obtain ⟨g', how⟩ := refusal refused
    cases how with
    | unchanged reason => exact .inl reason
    | noOperand => exact .inr rfl
    | castLeft _ reason => exact .inl reason
  · obtain ⟨g', how⟩ := refusal crashed
    cases how with
    | noOperand count none =>
      refine ⟨?_, none⟩
      cases op with
      | fused x => exact ⟨x, rfl, count⟩
      | _ => cases count
    | unchanged reason | castLeft _ reason =>
      obtain ⟨_, refuses | refuses⟩ := reason <;> cases refuses
  · rintro ⟨⟨x, rfl, none⟩, rfl⟩
    have typed : g.operandTys (.fused x) [] = .ok [] := by simp [operandTys, Op.arity, none, tys, Except.mapError]
    simp [apply, typed, apply.add, operandKind]

/-- An expression that loads an input and claims to have none. -/
def inputless : Expr := ⟨[.load 0], 0⟩

/-- The expression is out of range, and the addition ends without an answer. -/
theorem apply_crashes_inputless :
    (Expr.check inputless .f32 = .error "instruction 0 (Input(0)) is out of range") ∧
      ((empty .f32).apply (.fused inputless) []).2 = .error .crash :=
  ⟨rfl, rfl⟩

end Graph

end TensorGraph
