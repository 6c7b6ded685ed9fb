import TensorGraph.Pass.Canonical
import TensorGraph.Proofs.Kernel.Exchange
import TensorGraph.Proofs.Pass.Keeping
import TensorGraph.Proofs.Pass.Rebuilt
import TensorGraph.Proofs.Program.Extents

/-! The canonical form keeps types and values. Values are kept where operands may be exchanged and
signs cancel; the kernels that fold constants may fail but compute what the reference kernels do. Constants whose
result cannot be counted are a crash. -/
namespace TensorGraph

open Checked Rebuilding

/-- Kernels that may fail, and otherwise compute what the reference kernels compute. Transfers run no kernel. -/
def Kernels.Honest [BlockRoutine] (ks : Kernels) : Prop :=
  ∀ op : Op, ¬ op.isTransfer → ∀ kernel, ks.get? op.family = some kernel → ∃ reference,
    Kernels.host.get? op.family = some reference ∧ ∀ args d, kernel op args = .ok d → reference op args = .ok d

theorem Kernels.honest_host [BlockRoutine] : Kernels.host.Honest :=
  fun _ _ kernel found => ⟨kernel, found, fun _ _ ran => ran⟩

theorem Kernels.Honest.run [BlockRoutine] {ks : Kernels} (honest : ks.Honest) {op : Op} (computes : ¬ op.isTransfer)
    {ts : List Tensor} {math : MathMode} {t : Tensor} (ran : ks.run op ts math = .ok t) :
    Kernels.host.run op ts math = .ok t := by
  obtain ⟨kernel, found, rest⟩ := bind_eq_ok.mp ran
  obtain ⟨shape, result, rest⟩ := bind_eq_ok.mp rest
  obtain ⟨reference, foundHost, agrees⟩ := honest op computes _ (Op.lookup_eq_ok.mp found)
  cases ts with
  | nil => cases rest
  | cons first others =>
    obtain ⟨data, computed, made⟩ := bind_eq_ok.mp rest
    refine bind_eq_ok.mpr ⟨reference, Op.lookup_eq_ok.mpr foundHost, ?_⟩
    refine bind_eq_ok.mpr ⟨shape, result, ?_⟩
    exact bind_eq_ok.mpr ⟨data, agrees _ _ computed, made⟩

/-- Kernels whose results have the types that inference gives them. -/
def Kernels.Typed (ks : Kernels) : Prop :=
  ∀ {op : Op} {tys : List Ty} {ty : Ty} {ts : List Tensor} {t : Tensor}, ¬ op.isTransfer → op.infer tys = .ok ty →
    List.Forall₂ Tensor.HasType ts tys → ks.run op ts {} = .ok t → t.HasType ty

/-- Kernels that give results of the right types or refuse their operands, but never crash on operands of
the right types unless sizes overflow. -/
structure Kernels.WellTyped (ks : Kernels) : Prop where
  typed : ks.Typed
  calm : ∀ {op : Op} {tys : List Ty} {ty : Ty} {ts : List Tensor}, ¬ op.isTransfer → op.infer tys = .ok ty →
    List.Forall₂ Tensor.HasType ts tys → ks.run op ts {} = .error .crash →
      op.resultShape (ts.map Tensor.shape) = .error .crash

theorem Kernels.Honest.typed [BlockRoutine] {ks : Kernels} (honest : ks.Honest) : ks.Typed := by
  intro op tys ty ts t computes inferred operands ran
  have evaluated : op.eval {} ts = .ok t := by
    rw [Op.eval_computed computes]
    exact honest.run computes ran
  rcases Op.eval_typed inferred operands {} with ⟨u, -, ran', has⟩ | ⟨e, -, ran', -⟩
  · cases evaluated.symm.trans ran'
    exact has
  · cases evaluated.symm.trans ran'

theorem Kernels.wellTyped_host [BlockRoutine] : Kernels.host.WellTyped where
  typed := honest_host.typed
  calm {op tys ty ts} computes inferred operands ran := by
    rw [← Op.eval_computed computes] at ran
    rcases Op.eval_typed inferred operands {} with ⟨u, -, ran', -⟩ | ⟨e, failed, ran', -⟩
    · cases ran.symm.trans ran'
    · cases ran.symm.trans ran'
      exact failed

/-- What kernels give has the shape that the operation has. -/
theorem Kernels.shape_of_run {ks : Kernels} {op : Op} {ts : List Tensor} {math : MathMode} {t : Tensor}
    (ran : ks.run op ts math = .ok t) : op.resultShape (ts.map Tensor.shape) = .ok t.shape := by
  obtain ⟨kernel, -, rest⟩ := bind_eq_ok.mp ran
  obtain ⟨shape, result, rest⟩ := bind_eq_ok.mp rest
  cases ts with
  | nil => cases rest
  | cons first others =>
    obtain ⟨data, -, made⟩ := bind_eq_ok.mp rest
    rw [result, (Tensor.make_eq_ok made).1]

/-- The scope of what is left when types are only kept under a condition. -/
def Scope.under (scope : Scope) (held : Prop) : Scope := { scope with typed := scope.typed ∧ held }

theorem Scope.under_of_held {scope : Scope} {held : Prop} (holds : held) : scope.under held = scope := by
  unfold under
  rw [eq_true holds, and_true]

/-- What holds of a scope holds of it under a condition. -/
theorem Scope.fresh_under (scope : Scope) (held : Prop) :
    (Discipline.fresh scope).Implies (.fresh (scope.under held)) where
  op op tys place mark := by
    rintro ⟨bare, unmarked, allowed⟩
    exact ⟨bare, unmarked, fun t member asked => allowed t member asked.1⟩
  leaf _ := id
  cell _ := id
  typed := And.left

namespace Canonical

theorem ordered_cases (op : Op) (args : List VarId) :
    ordered op args = args ∨ ∃ f a b, op = .binary f ∧ f.isCommutative ∧ args = [a, b] ∧
      ordered op args = [b, a] := by
  unfold ordered
  split
  · rename_i f a b
    by_cases swap : f.isCommutative ∧ b < a
    · exact .inr ⟨f, a, b, rfl, swap.1, rfl, if_pos swap⟩
    · exact .inl (if_neg swap)
  · exact .inl rfl

theorem ordered_length (op : Op) (args : List VarId) : (ordered op args).length = args.length := by
  rcases ordered_cases op args with same | ⟨f, a, b, -, -, rfl, swapped⟩
  · rw [same]
  · rw [swapped]
    rfl

theorem mem_ordered {op : Op} {args : List VarId} {v : VarId} : v ∈ ordered op args ↔ v ∈ args := by
  rcases ordered_cases op args with same | ⟨f, a, b, -, -, rfl, swapped⟩
  · rw [same]
  · simp [swapped, or_comm]

theorem infer_swap {f : Binary} {a b ty : Ty} (inferred : (Op.binary f).infer [a, b] = .ok ty) :
    (Op.binary f).infer [b, a] = .ok ty := by
  obtain ⟨first, rest, split, count, sameKind, accepted, rank, kind, unplaced⟩ :=
    Op.infer_eq_ok.mp inferred
  obtain ⟨rfl, rfl⟩ := List.cons_eq_cons.mp split
  have same : b.kind = a.kind := sameKind b (by simp)
  refine Op.infer_eq_ok.mpr ⟨b, [a], rfl, rfl, ?_, accepted, ?_, ?_, unplaced⟩
  · intro t member
    rcases List.mem_cons.mp member with rfl | last
    · rfl
    · rw [List.mem_singleton.mp last, same]
  · simp only [Op.inferRank, foldRank, broadcastRank?] at rank ⊢
    by_cases equal : a.rank = b.rank
    · simpa [equal] using rank
    · by_cases left : a.rank = 0
      · have right : b.rank ≠ 0 := fun none => equal (left.trans none.symm)
        simpa [equal, left, right, Ne.symm right] using rank
      · by_cases right : b.rank = 0
        · simpa [equal, left, right, Ne.symm left] using rank
        · simp [equal, left, right] at rank
  · rw [kind]
    exact same.symm

theorem ordered_types {g : Graph} (op : Op) {args : List VarId} {tys : List Ty} (types : g.Types args tys) :
    ∃ tys', g.Types (ordered op args) tys' ∧ (∀ ty, op.infer tys = .ok ty → op.infer tys' = .ok ty) ∧
      ∀ t ∈ tys', t ∈ tys := by
  rcases ordered_cases op args with same | ⟨f, a, b, rfl, -, rfl, swapped⟩
  · rw [same]
    exact ⟨tys, types, fun _ inferred => inferred, fun _ member => member⟩
  · cases types with
    | @cons _ s _ _ head tail =>
      cases tail with
      | @cons _ t _ _ second none =>
        cases none
        rw [swapped]
        exact ⟨[t, s], .cons second (.cons head .nil), fun _ inferred => infer_swap inferred, by simp [or_comm]⟩

/-- An exchange of operands does not change the value. -/
theorem ordered_value [BlockRoutine] {op : Op} {args : List VarId} {value : VarId → Option Tensor}
    (balanced : ∀ a ∈ args, ∀ t, value a = some t → op.Balanced t.kind) :
    (((ordered op args).mapM value).bind fun ts => (op.eval {} ts).toOption) =
      (args.mapM value).bind fun ts => (op.eval {} ts).toOption := by
  rcases ordered_cases op args with same | ⟨f, a, b, rfl, commutes, rfl, swapped⟩
  · rw [same]
  · rw [swapped]
    have exchanged : ∀ {u v : VarId}, u ∈ [a, b] → ∀ {r : Tensor},
        (([u, v].mapM value).bind fun ts => ((Op.binary f).eval {} ts).toOption) = some r →
        (([v, u].mapM value).bind fun ts => ((Op.binary f).eval {} ts).toOption) = some r := by
      intro u v member r ran
      obtain ⟨ts, operands, evaluated⟩ := Option.bind_eq_some_iff.mp ran
      cases atU : value u with
      | none => simp [atU] at operands
      | some t =>
        cases atV : value v with
        | none => simp [atU, atV] at operands
        | some t' =>
          simp only [List.mapM_cons, List.mapM_nil, atU, atV, Option.pure_def, Option.bind_eq_bind,
            Option.bind_some, Option.some.injEq] at operands ⊢
          subst operands
          cases first : (Op.binary f).eval {} [t, t'] with
          | error e => simp [first, Except.toOption] at evaluated
          | ok r' =>
            simp only [first, Except.toOption, Option.some.injEq] at evaluated
            subst evaluated
            have kind := (Op.binary_operands first).2.1
            have here := balanced u member t atU
            rw [← kind] at here
            rw [Op.eval_exchange commutes here first]
            rfl
    cases left : ([a, b].mapM value).bind fun ts => ((Op.binary f).eval {} ts).toOption with
    | some r => exact exchanged (by simp) left
    | none =>
      cases right : ([b, a].mapM value).bind fun ts => ((Op.binary f).eval {} ts).toOption with
      | none => rfl
      | some r =>
        rw [exchanged (by simp) right] at left
        cases left

theorem constants_eq_some {g : Graph} {inputs : List VarId} {constants : List Tensor}
    (found : (inputs.mapM fun v => do (← g.vars[v]?).constant?) = some constants) :
    List.Forall₂ (fun v t => ∃ x, g.vars[v]? = some x ∧ x.origin = .constant t) inputs constants := by
  refine (mapM_eq_some.mp found).imp fun v t atV => ?_
  obtain ⟨x, atX, isConstant⟩ := Option.bind_eq_some_iff.mp atV
  refine ⟨x, atX, ?_⟩
  cases origin : x.origin with
  | constant t' =>
    simp only [Var.constant?, origin, Option.some.injEq] at isConstant
    rw [isConstant]
  | _ => simp [Var.constant?, origin] at isConstant

theorem constants_hasType {g : Graph} {d : Discipline} (sound : g.Sound d) {inputs : List VarId}
    {constants : List Tensor} {tys : List Ty} (types : g.Types inputs tys)
    (each : List.Forall₂ (fun v t => ∃ x, g.vars[v]? = some x ∧ x.origin = .constant t) inputs
      constants) : List.Forall₂ Tensor.HasType constants tys := by
  induction types generalizing constants with
  | nil =>
    cases each
    exact .nil
  | cons head tail ih =>
    cases each with
    | cons here rest =>
      obtain ⟨x, atX, rfl⟩ := head
      obtain ⟨x', atX', origin⟩ := here
      obtain rfl : x = x' := Option.some.inj (atX.symm.trans atX')
      have fits := sound.leaf atX
      rw [Var.Fits, origin] at fits
      exact .cons fits.2 (ih rest)

theorem constants_value [BlockRoutine] {g : Graph} {math : Place → MathMode} {b : Binding} {inputs : List VarId}
    {constants : List Tensor}
    (each : List.Forall₂ (fun v t => ∃ x, g.vars[v]? = some x ∧ x.origin = .constant t) inputs
      constants) : inputs.mapM (g.value math b) = some constants := by
  refine mapM_eq_some.mpr (each.imp ?_)
  rintro v t ⟨x, atX, origin⟩
  rw [Graph.value_leaf atX (by simp [Var.isLeaf, origin]), origin]
  rfl

theorem constants_shape {g : Graph} {inputs : List VarId} {constants : List Tensor}
    (each : List.Forall₂ (fun v t => ∃ x, g.vars[v]? = some x ∧ x.origin = .constant t) inputs constants) :
    inputs.mapM g.fixedShape? = some (constants.map Tensor.shape) := by
  refine mapM_eq_some.mpr (List.forall₂_map_right_iff.mpr (each.imp ?_))
  rintro v t ⟨x, atX, origin⟩
  rw [Graph.fixedShape?_leaf atX (by simp [Var.isLeaf, origin])]
  simp [Var.constant?, origin]

/-- Folding runs the kernel on constants, and what it gives does not exceed the limit. It fails only by a crash, of the
kernel or because the result cannot be counted. -/
theorem fold?_spec (ks : Kernels) (limit : Nat) (g : Graph) (op : Op) (inputs : List VarId) :
    match fold? ks limit g op inputs with
    | .ok none => True
    | .ok (some t) => ¬ op.isTransfer ∧ t.data.size ≤ limit ∧ ∃ constants, ks.run op constants {} = .ok t ∧
        List.Forall₂ (fun v t => ∃ x, g.vars[v]? = some x ∧ x.origin = .constant t) inputs constants
    | .error e => e = .crash ∧ ¬ op.isTransfer ∧ ∃ constants,
        (op.resultShape (constants.map Tensor.shape) = .error .crash ∨ ks.run op constants {} = .error .crash) ∧
        List.Forall₂ (fun v t => ∃ x, g.vars[v]? = some x ∧ x.origin = .constant t) inputs constants := by
  unfold fold?
  by_cases moves : op.isTransfer
  · simp [moves]
  simp only [moves, Bool.false_eq_true, ↓reduceIte]
  cases found : inputs.mapM fun v => do (← g.vars[v]?).constant? with
  | none => trivial
  | some constants =>
    have each := constants_eq_some found
    simp only
    cases result : op.outputShape (constants.map Tensor.shape) with
    | error e =>
      cases e with
      | crash => exact ⟨rfl, id, constants, .inl (Op.resultShape_of_error result), each⟩
      | _ => trivial
    | ok shape =>
      simp only
      by_cases counted : shape.counts
      swap
      · simp only [counted, Bool.not_false, ↓reduceIte]
        refine ⟨trivial, id, constants, .inl (Op.resultShape_crash result ?_), each⟩
        exact fun within => counted (Shape.counts_of_fits within.2)
      simp only [counted, Bool.not_true, Bool.false_eq_true, ↓reduceIte]
      by_cases large : shape.volume > limit
      · simp [large]
      simp only [large, ↓reduceIte]
      cases ran : ks.run op constants {} with
      | ok t =>
        obtain ⟨shaped, -⟩ := Op.resultShape_eq_ok.mp (Kernels.shape_of_run ran)
        obtain rfl : shape = t.shape := Except.ok.inj (result.symm.trans shaped)
        exact ⟨id, t.size_eq ▸ Nat.le_of_not_gt large, constants, ran, each⟩
      | error e =>
        cases e with
        | crash => exact ⟨rfl, id, constants, .inr ran, each⟩
        | _ => trivial

theorem infer_unary {f : Unary} {tys : List Ty} {ty : Ty}
    (inferred : (Op.unary f).infer tys = .ok ty) : ∃ t, tys = [t] ∧ t.Alike ty := by
  obtain ⟨first, rest, rfl, count, -, -, rank, kind, -⟩ := Op.infer_eq_ok.mp inferred
  obtain rfl : rest = [] := by simpa [Op.arity] using count
  exact ⟨first, rfl, kind.symm, Except.ok.inj rank⟩

variable [BlockRoutine]

/-- What a double negation negates has the type and the value of the double negation. -/
theorem negated?_spec {g : Graph} {d : Discipline} (sound : g.Sound d) {op : Op} {args : List VarId}
    {x : VarId} (found : negated? g op args = some x) :
    ∃ y, g.vars[x]? = some y ∧ ∀ {tys : List Ty} {ty : Ty}, g.Types args tys → op.infer tys = .ok ty →
      y.ty.Alike ty ∧ ∀ b : Binding,
        (∀ a ∈ args, ∀ t, g.value (fun _ => {}) b a = some t → op.Balanced t.kind) →
        ((args.mapM (g.value (fun _ => {}) b)).bind fun ts => (op.eval {} ts).toOption) =
          g.value (fun _ => {}) b x := by
  unfold negated? at found
  split at found
  swap
  · cases found
  rename_i a rest
  obtain ⟨inner, produced, head⟩ := Option.bind_eq_some_iff.mp found
  by_cases again : inner.op = .unary .neg
  swap
  · simp [again] at head
  rw [if_pos again] at head
  obtain ⟨at_, output⟩ := sound.of_producer? produced
  obtain ⟨-, -, -, tysI, tyI, y, typesI, inferredI, atOutput, placed, -⟩ := sound.node at_
  rw [again] at inferredI
  obtain ⟨tx, rfl, alikeI⟩ := infer_unary inferredI
  obtain ⟨u, inputs⟩ : ∃ u, inner.inputs = [u] := List.length_eq_one_iff.mp typesI.length_eq
  rw [inputs] at head typesI
  obtain rfl : u = x := Option.some.inj head
  rw [output] at atOutput
  cases typesI with
  | cons firstI _ =>
    obtain ⟨w, atX, rfl⟩ := firstI
    refine ⟨w, atX, fun types inferred => ?_⟩
    obtain ⟨t, rfl, alike⟩ := infer_unary inferred
    obtain rfl : rest = [] := by
      have length := types.length_eq
      simpa using length
    cases types with
    | cons first _ =>
      obtain ⟨z, atA, rfl⟩ := first
      obtain rfl : y = z := Option.some.inj (atOutput.symm.trans atA)
      have middle : w.ty.Alike y.ty := by
        rw [placed]
        exact alikeI
      refine ⟨middle.trans alike, fun b balanced => ?_⟩
      have valueA : g.value (fun _ => {}) b a = (([u].mapM (g.value (fun _ => {}) b)).bind
          fun ts => ((Op.unary .neg).eval {} ts).toOption) := by
        have value : g.value (fun _ => {}) b inner.output = _ := sound.value_output at_
        rw [output, inputs, again] at value
        exact value
      cases valueX : g.value (fun _ => {}) b u with
      | none => simp [valueA, valueX]
      | some t =>
        obtain ⟨r, ran, -, kind⟩ := Op.eval_unary .neg t {}
        have valueR : g.value (fun _ => {}) b a = some r := by
          simp [valueA, valueX, ran, Except.toOption]
        have cancels := (balanced a (by simp) r valueR).cancel rfl
        rw [kind] at cancels
        obtain ⟨r', ran', back⟩ := Op.eval_neg_neg cancels
        obtain rfl : r = r' := Except.ok.inj (ran.symm.trans ran')
        simp [valueR, back, Except.toOption]

section Operands

/-- An operation whose operands are read: they have types that it accepts, if types are kept, and give it its value, if
values are. -/
structure Operands (p : Program) (d : Discipline) (s : Stage) (n : Node) (ty : Ty) (r : Rebuild) (args : List VarId)
    (tys : List Ty) : Prop where
  mirrors : r.Mirrors p d s
  types : r.graph.Types args tys
  inferred : s.typed → n.op.infer tys = .ok ty
  value : s.kept → s.before p n.output = (args.mapM (s.after r.graph)).bind fun ts => (n.op.eval s.math ts).toOption
  balanced : s.kept → ∀ a ∈ args, ∀ t, s.after r.graph a = some t → n.op.Balanced t.kind
  calm : s.kept → s.Calm p → ¬ n.op.isPointwise → n.op.Calm (args.mapM (s.after r.graph))

variable {c : Context} {p : Program} {d d' : Discipline} {s : Stage} {n : Node} {tys tys' : List Ty} {ty : Ty} {x : Var}
  {r : Rebuild} {args : List VarId} {fails : Error → Prop}

namespace Operands

/-- The operands may be put in order. -/
theorem ordered (operands : Operands p d' s n ty r args tys') (math : s.kept → s.math = {}) :
    ∃ tys'', Operands p d' s n ty r (Canonical.ordered n.op args) tys'' ∧ ∀ t ∈ tys'', t ∈ tys' := by
  obtain ⟨tys'', types, inferences, members⟩ := ordered_types n.op operands.types
  refine ⟨tys'', ⟨operands.mirrors, types, fun typed => inferences ty (operands.inferred typed), fun kept => ?_,
    fun kept a member => operands.balanced kept a (mem_ordered.mp member), fun kept calm computes => ?_⟩, members⟩
  · have value := operands.value kept
    rw [math kept] at value ⊢
    exact value.trans (ordered_value (operands.balanced kept)).symm
  · rcases ordered_cases n.op args with same | ⟨f, a, b, isBinary, -⟩
    · rw [same]
      exact operands.calm kept calm computes
    · exact absurd (by rw [isBinary]; rfl) computes

/-- What a double negation negates has the type and the value of the operation. -/
theorem negated (operands : Operands p d' s n ty r args tys') (known : p.Operation d n tys ty x) (stays : ¬ s.stays)
    (math : s.kept → s.math = {}) (keeps : s.kept → s.typed) {w : VarId} (found : negated? r.graph n.op args = some w) :
    (Rebuild.bind n.output w).Meets r fails fun _ r' => r.Advances r' p d' s (fun _ => False) n := by
  obtain ⟨y, atW, spec⟩ := negated?_spec operands.mirrors.graph found
  have alike : s.typed → y.ty.Alike ty := fun typed => (spec operands.types (operands.inferred typed)).1
  have value : s.kept → s.after r.graph w = s.before p n.output := by
    intro kept
    have same := (spec operands.types (operands.inferred (keeps kept))).2 s.new
    have value := operands.value kept
    have balanced := operands.balanced kept
    unfold Stage.after at value balanced ⊢
    rw [math kept] at value balanced ⊢
    exact (value.trans (same balanced)).symm
  exact (operands.mirrors.settle known atW (fun typed => (alike typed).symm) (fun here => absurd here stays)
    value).mono fun _ _ settled => settled.1

/-- What folding computes has the type and the value of the operation. -/
theorem fold_spec (operands : Operands p d' s n ty r args tys') (honest : s.kept → c.kernels.Honest)
    (math : s.kept → s.math = {}) (results : s.typed → c.kernels.Typed) {t : Tensor}
    (fold : fold? c.kernels c.config.foldLimit r.graph n.op args = .ok (some t)) :
    (s.typed → t.HasType ty) ∧ (s.kept → s.before p n.output = some t) := by
  have spec := fold?_spec c.kernels c.config.foldLimit r.graph n.op args
  rw [fold] at spec
  obtain ⟨computes, -, constants, ran, each⟩ := spec
  refine ⟨fun typed => ?_, fun kept => ?_⟩
  · exact results typed computes (operands.inferred typed)
      (constants_hasType operands.mirrors.graph operands.types each) ran
  · have read : args.mapM (s.after r.graph) = some constants := constants_value each
    have evaluated : n.op.eval {} constants = .ok t := by
      rw [Op.eval_computed computes]
      exact (honest kept).run computes ran
    rw [operands.value kept, read, math kept, Option.bind_some, evaluated]
    rfl

/-- A constant of the type and the value of the operation stands for it. -/
theorem folded (operands : Operands p d' s n ty r args tys') (known : p.Operation d n tys ty x) (stays : ¬ s.stays)
    {t : Tensor} (leaf : d'.leaf { kind := t.kind, rank := t.rank }) (has : s.typed → t.HasType ty)
    (value : s.kept → s.before p n.output = some t) :
    (do Rebuild.bind n.output (← Rebuild.constant t) : Rebuilding Unit).Meets r fails
      fun _ r' => r.Advances r' p d' s (fun _ => False) n := by
  rw [meets_bind]
  refine (operands.mirrors.constant leaf).mono ?_
  rintro w r₁ ⟨mirrors, grows, valueW, atW⟩
  refine (mirrors.settle known atW (fun typed => ⟨(has typed).1.symm, (has typed).2.symm⟩)
    (fun here => absurd here stays) fun kept => ?_).mono fun _ _ settled => settled.1.after grows.keeps
  rw [valueW, value kept]

/-- A variable that is known to hold the result of the operation stands for it. -/
theorem shared (operands : Operands p d' s n ty r args tys') (known : p.Operation d n tys ty x) (stays : ¬ s.stays)
    {v : VarId} (knows : r.graph.Knows s n.op args v) :
    (Rebuild.bind n.output v).Meets r fails fun _ r' => r.Advances r' p d' s (fun _ => False) n := by
  obtain ⟨tysK, tyK, y, typesK, inferredK, atV, alikeK⟩ := knows.typed
  obtain rfl : tys' = tysK := operands.types.unique typesK
  have alike : s.typed → ty.Alike y.ty := by
    intro typed
    obtain rfl : ty = tyK := Except.ok.inj ((operands.inferred typed).symm.trans inferredK)
    exact alikeK
  exact (operands.mirrors.settle known atV alike (fun here => absurd here stays) fun kept =>
    (knows.value kept).trans (operands.value kept).symm).mono fun _ _ settled => settled.1

/-- The operation itself may be added, and is known then. -/
theorem added (operands : Operands p d' s n ty r args tys') (known : p.Operation d n tys ty x) (stays : ¬ s.stays)
    (moves : ¬ s.moves) {ty' : Ty} (inferred : n.op.infer tys' = .ok ty')
    (rule : d'.op n.op tys' n.place n.inPlace) :
    (do
      let v ← Rebuild.emit n.op args n.place n.inPlace
      Rebuild.bind n.output v
      Rebuild.note n.op args v : Rebuilding Unit).Meets r fails
        fun _ r' => r.Advances r' p d' s (fun _ => False) n := by
  rw [meets_bind]
  refine (operands.mirrors.emit operands.types inferred rule operands.calm).mono ?_
  rintro w r₁ ⟨mirrors₁, grows₁, -, -, -, -, ⟨y, atW, placed, -⟩, valueW⟩
  have alikeW : ty'.Alike y.ty := by
    rw [placed]
    exact .refl _
  have alike : s.typed → ty.Alike y.ty := by
    intro typed
    obtain rfl : ty = ty' := Except.ok.inj ((operands.inferred typed).symm.trans inferred)
    exact alikeW
  have value : s.kept → s.after r₁.graph w = s.before p n.output := fun kept => by rw [valueW, operands.value kept]
  have settled : (Rebuild.bind n.output w).Meets r₁ fails fun _ r' =>
      r₁.Advances r' p d' s (fun _ => False) n ∧ r'.graph = r₁.graph :=
    mirrors₁.settle known atW alike (fun here => absurd here stays) value
  rw [meets_bind]
  refine settled.mono ?_
  rintro _ r₂ ⟨⟨mirrors₂, keeps₂, here⟩, graph⟩
  have knows : r₂.graph.Knows s n.op args w := by
    rw [graph]
    refine ⟨⟨tys', ty', y, grows₁.graph.types operands.types, inferred, atW, alikeW⟩,
      fun leads => absurd leads moves, fun kept => ?_⟩
    rw [valueW, operands.mirrors.values_grow mirrors₁.graph grows₁.graph operands.types]
  refine (mirrors₂.note knows).mono ?_
  rintro _ r₃ ⟨mirrors₃, -, image⟩
  refine ⟨mirrors₃, (grows₁.keeps.trans keeps₂).trans (Rebuild.keeps_of_image image), fun kept => ?_⟩
  rw [image]
  exact here kept

end Operands

end Operands

section Extents

variable {c : Context} {p : Program} {d d' : Discipline} {s : Stage} {r r' : Rebuild} {done : List Node} {n : Node}
  {args : List VarId}

omit [BlockRoutine] in
theorem ordered_shape {op : Op} {known : VarId → Option Shape} :
    (((ordered op args).mapM known).bind fun shapes => (op.resultShape shapes).toOption) =
      (args.mapM known).bind fun shapes => (op.resultShape shapes).toOption := by
  rcases ordered_cases op args with same | ⟨f, a, b, rfl, -, rfl, swapped⟩
  · rw [same]
  · rw [swapped]
    cases atA : known a <;> cases atB : known b <;> simp [atA, atB, Op.binary_resultShape_comm]

omit [BlockRoutine] in
/-- What a double negation negates has its extents. -/
theorem negated?_shape {g : Graph} (sound : g.Sound d) {op : Op} {tys : List Ty} {ty : Ty} (types : g.Types args tys)
    (inferred : op.infer tys = .ok ty) {x : VarId} (found : negated? g op args = some x) :
    g.fixedShape? x = (args.mapM g.fixedShape?).bind fun shapes => (op.resultShape shapes).toOption := by
  unfold negated? at found
  split at found
  swap
  · cases found
  rename_i a rest
  obtain ⟨inner, produced, head⟩ := Option.bind_eq_some_iff.mp found
  by_cases again : inner.op = .unary .neg
  swap
  · simp [again] at head
  rw [if_pos again] at head
  obtain ⟨at_, output⟩ := sound.of_producer? produced
  obtain ⟨-, -, -, tysI, tyI, -, typesI, inferredI, -⟩ := sound.node at_
  rw [again] at inferredI
  obtain ⟨t, rfl, -⟩ := infer_unary inferredI
  obtain ⟨u, inputs⟩ : ∃ u, inner.inputs = [u] := List.length_eq_one_iff.mp typesI.length_eq
  rw [inputs] at head
  obtain rfl : u = x := Option.some.inj head
  obtain ⟨t', rfl, -⟩ := infer_unary inferred
  obtain rfl : rest = [] := by simpa using types.length_eq
  -- A negation has the extents of its operand.
  have negates : ∀ shape, g.fixedShape? u = some shape → (Op.unary .neg).resultShape [shape] = .ok shape := fun shape at_ =>
    Op.resultShape_eq_ok.mpr ⟨rfl, rfl, sound.fits_of_fixedShape at_⟩
  have once : g.fixedShape? a = g.fixedShape? u := by
    rw [← output, sound.fixedShape?_output at_, inputs, again]
    cases atU : g.fixedShape? u with
    | none => simp [atU]
    | some shape => simp [atU, negates shape atU, Except.toOption]
  cases atU : g.fixedShape? u with
  | none => simp [once, atU]
  | some shape => simp [once, atU, negates shape atU, Except.toOption]

/-- The new variables have the known extents of the old ones. -/
structure Sized (r : Rebuild) (p : Program) (done : List Node) : Prop where
  image : ∀ m ∈ done, ∀ w, r.image m.output = some w → r.graph.fixedShape? w = p.graph.fixedShape? m.output
  known : ∀ e ∈ r.known, r.graph.fixedShape? e.2 =
    (e.1.2.mapM r.graph.fixedShape?).bind fun shapes => (e.1.1.resultShape shapes).toOption

/-- Reading leaves keeps known extents. -/
theorem Sized.grow (sized : Sized r p done) (mirrors : r.Mirrors p d s) (mirrors' : r'.Mirrors p d s)
    (reached : r.Reached p (fun _ => False) done) (grows : r.Grows r') (same : r'.known = r.known) : Sized r' p done := by
  have older {v : VarId} (inRange : v < r.graph.vars.size) : r'.graph.fixedShape? v = r.graph.fixedShape? v :=
    mirrors.graph.fixedShape?_grows mirrors'.graph grows.graph inRange
  refine ⟨fun m member w image => ?_, fun e member => ?_⟩
  · obtain ⟨u, image'⟩ := Option.isSome_iff_exists.mp (reached.done m member id)
    obtain rfl : u = w := Option.some.inj ((grows.image image').symm.trans image)
    rw [older (mirrors.inRange image'), sized.image m member u image']
  · rw [same] at member
    obtain ⟨tys, ty, y, types, -, atV, -⟩ := (mirrors.known e member).typed
    rw [older (Array.getElem?_eq_some_iff.mp atV).1, sized.known e member,
      mapM_congr fun u reads => older (types.inRange u reads)]

/-- The image of the next operation may be made, and be known, if it has the extents of its output. -/
theorem Sized.next (sized : Sized r p done) (mirrors : r.Mirrors p d s) (sound : r'.graph.Sound d)
    (grows : r.graph.Grows r'.graph) {w : VarId} (image : r'.image = (r.imaged n.output w).image)
    (here : r'.graph.fixedShape? w = p.graph.fixedShape? n.output)
    (known : ∀ e ∈ r'.known, e ∈ r.known ∨ r'.graph.fixedShape? e.2 =
      (e.1.2.mapM r'.graph.fixedShape?).bind fun shapes => (e.1.1.resultShape shapes).toOption) :
    Sized r' p (done ++ [n]) := by
  have older {v : VarId} (inRange : v < r.graph.vars.size) : r'.graph.fixedShape? v = r.graph.fixedShape? v :=
    mirrors.graph.fixedShape?_grows sound grows inRange
  refine ⟨fun m member u atM => ?_, fun e member => ?_⟩
  · rw [image] at atM
    by_cases same : m.output = n.output
    · rw [same, Rebuild.imaged_self] at atM
      rw [← Option.some.inj atM, here, same]
    · rw [Rebuild.imaged_other same] at atM
      rcases List.mem_append.mp member with old | new
      · rw [older (mirrors.inRange atM), sized.image m old u atM]
      · exact absurd (congrArg Node.output (List.mem_singleton.mp new)) same
  · rcases known e member with old | new
    · obtain ⟨tys, ty, y, types, -, atV, -⟩ := (mirrors.known e old).typed
      rw [older (Array.getElem?_eq_some_iff.mp atV).1, sized.known e old,
        mapM_congr fun u reads => older (types.inRange u reads)]
    · exact new

end Extents

section Step

variable {c : Context} {p : Program} {scope : Scope} {math : MathMode} {ts : List Tensor}
  {cells : Array Tensor} {kept : Prop}

/-- What makes the canonical form keep values. -/
structure Regular (ks : Kernels) (p : Program) (scope : Scope) (math : MathMode) (ts : List Tensor)
    (cells : Array Tensor) : Prop where
  honest : ks.Honest
  typed : scope.typed
  rearranges : ∀ op k, scope.op op k → op.Rearranges k
  math : math = {}
  takes : p.Takes ts
  cells : ∀ c, scope.cell c → c.Typed cells

/-- Rules that the canonical form keeps: constants come in, and an operation may get other operands, of the same
kinds if types are kept. -/
structure Accepts (d d' : Discipline) (typed : Prop) : Prop where
  leaf : ∀ x : Var, x.Fits d → x.Fits d'
  constant : ∀ t : Tensor, d'.leaf { kind := t.kind, rank := t.rank }
  asked : d'.typed → d.typed ∧ typed
  op : ∀ {op : Op} {tys tys' : List Ty} {place : Place} {mark : Option Nat}, d.op op tys place mark →
    tys'.length = tys.length → (typed → ∀ t' ∈ tys', ∃ t ∈ tys, t.kind = t'.kind) → d'.op op tys' place mark

/-- Values are kept where operands may be exchanged and signs cancel, on arguments of the right types. -/
structure Faithful (ks : Kernels) (p : Program) (math : MathMode) (ts : List Tensor) (cells : Array Tensor) :
    Prop where
  honest : ks.Honest
  math : math = {}
  binds : p.graph.Binds (p.bind ts cells)
  balanced : ∀ n ∈ p.liveNodes, ∀ v ∈ n.inputs, ∀ x, p.graph.vars[v]? = some x → n.op.Balanced x.ty.kind

variable {d d' : Discipline} {typed : Prop} {fails : Error → Prop} {n : Node} {tys tys' : List Ty} {ty : Ty} {x : Var}
  {r : Rebuild} {args : List VarId}

/-- The images of the operands are operands that the operation accepts. -/
theorem operands_of_images (valid : p.Valid d) (known : p.Operation d n tys ty x) (live : n ∈ p.liveNodes)
    (mirrors : r.Mirrors p d' (p.stage math ts cells kept typed False False))
    (images : List.Forall₂ (fun v w => r.image v = some w) n.inputs args)
    (faithful : kept → Faithful c.kernels p math ts cells) :
    ∃ tys', Operands p d' (p.stage math ts cells kept typed False False) n ty r args tys' ∧
      (typed → List.Forall₂ Ty.Alike tys tys') := by
  obtain ⟨tys', types, alike, -⟩ := mirrors.types images known.types
  refine ⟨tys', ⟨mirrors, types, fun held => Op.infer_congr known.inferred (alike held), fun held => ?_,
    fun held a member t atA => ?_, fun held calm _ => ?_⟩, alike⟩
  · rw [mirrors.values held images]
    exact Stage.before_output _ valid live
  · obtain ⟨v, reads, image⟩ := partner_of images member
    obtain ⟨y, -, atV, -⟩ := mirrors.image image
    rw [mirrors.value held image] at atA
    have value : p.graph.value (fun _ => math) (p.bind ts cells) v = some t := atA
    have has := valid.graph.value_hasType (faithful held).binds atV value
    rw [has.1]
    exact (faithful held).balanced n live v reads y atV
  · rw [mirrors.values held images]
    exact calm n live

/-- The images of the operands have their known extents. -/
theorem Sized.operands {s : Stage} {before after : List Node} (sized : Sized r p before) (mirrors : r.Mirrors p d' s)
    (valid : p.Valid d) (split : p.liveNodes = before ++ n :: after)
    (images : List.Forall₂ (fun v w => r.image v = some w) n.inputs args) :
    args.mapM r.graph.fixedShape? = n.inputs.mapM p.graph.fixedShape? := by
  have each : List.Forall₂ (fun v w => p.graph.fixedShape? v = r.graph.fixedShape? w) n.inputs args := by
    refine List.forall₂_iff_get.mpr ⟨images.length_eq, fun i inInputs inArgs => ?_⟩
    have image := images.get inInputs inArgs
    obtain ⟨x, y, atV, -⟩ := mirrors.image image
    rcases valid.graph.leaf_or_output atV with isLeaf | ⟨j, m, at_, output⟩
    · rw [Graph.fixedShape?_leaf atV isLeaf, Graph.fixedShape?_leaf (mirrors.leaf image atV isLeaf) isLeaf]
    · have made : m ∈ before := by
        have produced := valid.graph.producer?_output at_
        rw [output] at produced
        exact valid.graph.live_before split (List.get_mem _ _) produced
      rw [← output] at image ⊢
      exact (sized.image m made _ image).symm
  clear images
  generalize n.inputs = vs at each
  induction each with
  | nil => rfl
  | cons head tail ih => rw [List.mapM_cons, List.mapM_cons, head, ih]

/-- A fold crashes only where sizes overflow. -/
theorem overflow_of_crash (live : n ∈ p.liveNodes)
    (operands : Operands p d' (p.stage math ts cells kept typed False False) n ty r args tys')
    (shapes : args.mapM r.graph.fixedShape? = n.inputs.mapM p.graph.fixedShape?)
    (held : typed) (good : c.kernels.WellTyped) (plain : kept → math = {})
    {e : Error} (fold : fold? c.kernels c.config.foldLimit r.graph n.op (ordered n.op args) = .error e) :
    e = .crash ∧ p.Overflows := by
  have spec := fold?_spec c.kernels c.config.foldLimit r.graph n.op (ordered n.op args)
  rw [fold] at spec
  obtain ⟨rfl, computes, constants, crashed, each⟩ := spec
  obtain ⟨tys'', operands', -⟩ := operands.ordered plain
  have overflow : n.op.resultShape (constants.map Tensor.shape) = .error .crash := by
    refine crashed.elim id fun ran => good.calm computes (operands'.inferred held) ?_ ran
    exact constants_hasType operands.mirrors.graph operands'.types each
  have known := constants_shape each
  -- The order of operands matters to binary operations only, and these do not overflow.
  rcases ordered_cases n.op args with same | ⟨f, a, b, isBinary, -, -, swapped⟩
  · rw [same, shapes] at known
    exact ⟨rfl, n, live, _, known, overflow⟩
  · refine absurd overflow (Op.pointwise_calm (by rw [isBinary]; rfl) ?_)
    rintro rfl
    rw [swapped] at known
    simp [Option.bind_eq_some_iff] at known

/-- The new form of an operation has the known extents of the old one. -/
theorem step_sized {s : Stage} (valid : p.Valid d) (accepts : Accepts d d' typed) (held : s.typed)
    {before after : List Node} (split : p.liveNodes = before ++ n :: after) (mirrors : r.Mirrors p d' s)
    (reached : r.Reached p (fun _ => False) before) (sized : Sized r p before) :
    (step c p n).Meets r (fun _ => True) fun _ r' => r'.graph.Sound d' → Sized r' p (before ++ [n]) := by
  have live : n ∈ p.liveNodes := by
    rw [split]
    simp
  obtain ⟨tys, ty, x, known⟩ := valid.operation live
  have copying : p.Copying fun r' => r'.known = r.known := fun same _ _ _ => same
  unfold step
  rw [meets_bind]
  refine ((mirrors.readAll (fun v reads => reached.ready valid split (by simp) reads id)
    fun v _ y atV _ => accepts.leaf y (valid.graph.leaf atV)).and (Rebuild.readAll_keeps copying rfl n.inputs)).mono ?_
  rintro args r₁ ⟨⟨mirrors₁, grows₁, images⟩, same, -⟩
  have sized₁ := sized.grow mirrors mirrors₁ reached grows₁ same
  obtain ⟨tys', types, alike, -⟩ := mirrors₁.types images known.types
  have inferred := Op.infer_congr known.inferred (alike held)
  have shapeOf : p.graph.fixedShape? n.output =
      (args.mapM r₁.graph.fixedShape?).bind fun shapes => (n.op.resultShape shapes).toOption := by
    rw [valid.graph.fixedShape?_output (valid.graph.live_mem live), sized₁.operands mirrors₁ valid split images]
  have inOrder : ((ordered n.op args).mapM r₁.graph.fixedShape?).bind (fun shapes => (n.op.resultShape shapes).toOption) =
      p.graph.fixedShape? n.output := ordered_shape.trans shapeOf.symm
  rw [meets_bind, meets_get]
  cases found : negated? r₁.graph n.op args with
  | some w =>
    simp only [meets_bind, meets_pure, Rebuild.bind, meets_modify]
    refine fun sound => sized₁.next mirrors₁ sound (.refl _) rfl ?_ fun _ => .inl
    rw [negated?_shape mirrors₁.graph types inferred found, shapeOf]
  | none =>
    simp only
    rw [meets_bind, meets_get, meets_bind, meets_lift]
    cases fold : fold? c.kernels c.config.foldLimit r₁.graph n.op (ordered n.op args) with
    | error e => trivial
    | ok result =>
      cases result with
      | some t =>
        simp only [meets_bind, Rebuild.constant, Rebuild.leaf, meets_get, meets_set, meets_pure, Rebuild.bind, meets_modify]
        refine fun sound => sized₁.next mirrors₁ sound (Graph.pushLeaf_grows ..) rfl ?_ fun _ => .inl
        have spec := fold?_spec c.kernels c.config.foldLimit r₁.graph n.op (ordered n.op args)
        rw [fold] at spec
        obtain ⟨-, -, constants, ran, each⟩ := spec
        have atNew : (r₁.graph.pushLeaf { ty := { kind := t.kind, rank := t.rank }, origin := .constant t }).1.vars[
            r₁.graph.vars.size]? = some _ := Array.getElem?_push_size
        rw [← inOrder, constants_shape each, Option.bind_some, Kernels.shape_of_run ran]
        exact Graph.fixedShape?_leaf atNew rfl
      | none =>
        simp only
        rw [meets_bind]
        refine (Rebuild.known?_spec n.op (ordered n.op args)).mono ?_
        rintro result r₁ ⟨rfl, there, -⟩
        cases result with
        | some v =>
          simp only [meets_bind, meets_pure, Rebuild.bind, meets_modify]
          refine fun sound => sized₁.next mirrors₁ sound (.refl _) rfl ?_ fun _ => .inl
          rw [sized₁.known _ (there v rfl), inOrder]
        | none =>
          simp only
          rw [meets_bind]
          refine (Rebuild.emit_typed n.op (ordered n.op args) n.place n.inPlace).mono ?_
          rintro w _ ⟨rfl, tys'', ty', types'', -, rfl⟩
          simp only [meets_bind, Rebuild.bind, Rebuild.note, meets_modify]
          intro sound
          have grows := Graph.grown_grows r₁.graph n.op (ordered n.op args) ty' n.place n.inPlace
          have emitted := sound.fixedShape?_output (i := r₁.graph.nodes.size) Array.getElem?_push_size
          refine sized₁.next mirrors₁ sound grows rfl ?_ fun e member => ?_
          · rw [← inOrder, ← mapM_congr fun u reads =>
              mirrors₁.graph.fixedShape?_grows sound grows (types''.inRange u reads)]
            exact emitted
          · rcases List.mem_cons.mp member with rfl | old
            · exact .inr emitted
            · exact .inl old

/-- The new form of an operation mirrors it. That fails only with kernels that are not well typed, or by a crash where
sizes overflow. -/
theorem step_meets (valid : p.Valid d) (accepts : Accepts d d' typed)
    (faithful : kept → Faithful c.kernels p math ts cells) (keeps : kept → typed) (results : typed → c.kernels.Typed)
    (failing : ¬ (typed ∧ c.kernels.WellTyped) → ∀ e, fails e) (overflows : p.Overflows → fails .crash)
    {before after : List Node} (split : p.liveNodes = before ++ n :: after)
    (mirrors : r.Mirrors p d' (p.stage math ts cells kept typed False False))
    (reached : r.Reached p (fun _ => False) before) (sized : typed → Sized r p before) :
    (step c p n).Meets r fails fun _ r' =>
      r.Advances r' p d' (p.stage math ts cells kept typed False False) (fun _ => False) n := by
  have live : n ∈ p.liveNodes := by
    rw [split]
    simp
  obtain ⟨tys, ty, x, known⟩ := valid.operation live
  have copying : p.Copying fun r' => r'.known = r.known := fun same _ _ _ => same
  unfold step
  rw [meets_bind]
  refine ((mirrors.readAll (fun v reads => reached.ready valid split (by simp) reads id)
    fun v _ y atV _ => accepts.leaf y (valid.graph.leaf atV)).and (Rebuild.readAll_keeps copying rfl n.inputs)).mono ?_
  rintro args r₁ ⟨⟨mirrors₁, grows₁, images⟩, same, -⟩
  obtain ⟨tys', operands, alike⟩ := operands_of_images valid known live mirrors₁ images faithful
  have count : args.length = tys.length := by rw [← images.length_eq, known.types.length_eq]
  have plain : kept → math = {} := fun held => (faithful held).math
  suffices met : ∀ {act : Rebuilding Unit},
      (act.Meets r₁ fails fun _ r' =>
        r₁.Advances r' p d' (p.stage math ts cells kept typed False False) (fun _ => False) n) →
      act.Meets r₁ fails fun _ r' =>
        r.Advances r' p d' (p.stage math ts cells kept typed False False) (fun _ => False) n by
    refine met ?_
    rw [meets_bind, meets_get]
    cases found : negated? r₁.graph n.op args with
    | some w =>
      simp only [meets_bind, meets_pure]
      exact operands.negated known id plain keeps found
    | none =>
      obtain ⟨tys'', operands', members⟩ := operands.ordered plain
      simp only
      rw [meets_bind, meets_get, meets_bind, meets_lift]
      cases fold : fold? c.kernels c.config.foldLimit r₁.graph n.op (ordered n.op args) with
      | error e =>
        by_cases good : typed ∧ c.kernels.WellTyped
        swap
        · exact failing good e
        have shapes := ((sized good.1).grow mirrors mirrors₁ reached grows₁ same).operands mirrors₁ valid split images
        obtain ⟨rfl, overflow⟩ := overflow_of_crash live operands shapes good.1 good.2 plain fold
        exact overflows overflow
      | ok result =>
        cases result with
        | some t =>
          obtain ⟨has, value⟩ := operands'.fold_spec (fun held => (faithful held).honest) plain results fold
          exact operands'.folded known id (accepts.constant t) has value
        | none =>
          simp only
          rw [meets_bind]
          refine (mirrors₁.known? n.op (ordered n.op args)).mono ?_
          rintro result _ ⟨rfl, knows⟩
          cases result with
          | some v =>
            simp only [meets_bind, meets_pure]
            exact operands'.shared known id (knows v rfl)
          | none =>
            simp only
            cases inferred : n.op.infer tys'' with
            | error e =>
              -- Operands of the wrong types come from kernels that are not well typed.
              rw [meets_bind]
              refine Rebuild.emit_fails operands'.types inferred (failing (fun good => ?_) e)
              cases inferred.symm.trans (operands'.inferred good.1)
            | ok ty' =>
              refine operands'.added known id id inferred (accepts.op known.rule ?_ fun held t member => ?_)
              · rw [← operands'.types.length_eq, ordered_length, count]
              · obtain ⟨t', there, same⟩ := partner_of (alike held) (members t member)
                exact ⟨t', there, same.1⟩
  exact fun met => met.mono fun _ _ advances => advances.after grows₁.keeps

/-- The canonical form of a program, as far as it is. -/
theorem opening_meets {after done : List Node} (valid : p.Valid d) (accepts : Accepts d d' typed)
    (faithful : kept → Faithful c.kernels p math ts cells) (keeps : kept → typed) (results : typed → c.kernels.Typed)
    (failing : ¬ (typed ∧ c.kernels.WellTyped) → ∀ e, fails e) (overflows : p.Overflows → fails .crash)
    (whole : p.liveNodes = done ++ after) : (p.opening (step c p) done).Meets (.start p) fails fun _ r =>
      r.Mirrors p d' (p.stage math ts cells kept typed False False) ∧ r.Reached p (fun _ => False) done := by
  have copying : p.Copying fun r => r.known = [] := fun same _ _ _ => same
  refine (Program.opening_keeps (fun done r => typed → Sized r p done) valid accepts.leaf ?_ ?_).mono
    fun _ _ => And.left
  · refine (Rebuild.readAll_keeps copying rfl p.inputs).mono fun _ r opened _ => ⟨nofun, fun e member => ?_⟩
    rw [opened.1] at member
    cases member
  · intro before rest n r split mirrors reached sized
    have split : p.liveNodes = before ++ n :: (rest ++ after) := by
      rw [whole, split]
      simp
    by_cases held : typed
    · refine ((step_meets valid accepts faithful keeps results failing overflows split mirrors reached sized).and
        (step_sized (s := p.stage math ts cells kept typed False False) valid accepts held split mirrors reached
          (sized held))).mono fun _ r' ⟨advances, sized'⟩ => ⟨advances, fun _ => sized' advances.mirrors.graph⟩
    · exact (step_meets valid accepts faithful keeps results failing overflows split mirrors reached sized).mono
        fun _ r' advances => ⟨advances, fun asked => absurd asked held⟩

/-- The canonical form of a program is a program that computes the same. -/
theorem rebuild_meets (valid : p.Valid d) (accepts : Accepts d d' typed)
    (faithful : kept → Faithful c.kernels p math ts cells) (keeps : kept → typed) (results : typed → c.kernels.Typed)
    (failing : ¬ (typed ∧ c.kernels.WellTyped) → ∀ e, fails e) (overflows : p.Overflows → fails .crash) :
    match run c p with
    | .ok q => p.Rebuilt q d' (p.stage math ts cells kept typed False False)
    | .error e => fails e :=
  Program.rebuild_of_opening valid accepts.leaf accepts.asked (fun _ _ => id)
    (opening_meets valid accepts faithful keeps results failing overflows (List.append_nil _).symm)

omit [BlockRoutine] in
/-- Operations that come from a graph as it was built stay without place and mark. -/
theorem accepts_fresh (scope : Scope) (held : Prop) : Accepts (.fresh scope) (.fresh (scope.under held)) held where
  leaf _ := id
  constant _ := rfl
  asked := id
  op := by
    rintro op tys tys' place mark ⟨bare, unmarked, allowed⟩ - kinds
    refine ⟨bare, unmarked, ?_⟩
    rintro t' member ⟨typed, held⟩
    obtain ⟨t, inTys, same⟩ := kinds held t' member
    rw [← same]
    exact allowed t inTys typed

/-- The canonical form of a program is a program that computes the same. Its types are those of the program unless
the kernels that fold constants give others. Where sizes of constants overflow there is none. -/
theorem run_meets (valid : p.Valid (.fresh scope)) (regular : kept → Regular c.kernels p scope math ts cells) :
    match run c p with
    | .ok q => p.Rebuilt q (.fresh (scope.under c.kernels.Honest))
        (p.stage math ts cells kept c.kernels.Honest False False)
    | .error e => c.kernels ≠ Kernels.host ∨ e = .crash ∧ p.Overflows := by
  refine rebuild_meets valid (accepts_fresh scope _) (fun held => ?_) (fun held => (regular held).honest)
    Kernels.Honest.typed (fun bad _ => .inl fun host => ?_) fun overflow => .inr ⟨rfl, overflow⟩
  · refine ⟨(regular held).honest, (regular held).math, valid.binds (regular held).takes (regular held).cells, ?_⟩
    intro n live v reads x atV
    obtain ⟨tys, ty, y, known⟩ := valid.operation live
    obtain ⟨t, member, x', atV', same⟩ := partner known.types reads
    obtain rfl : x = x' := Option.some.inj (atV.symm.trans atV')
    exact ((regular held).rearranges _ _ (known.rule.2.2 _ (same ▸ member) (regular held).typed).2).balanced
  · exact bad (host ▸ ⟨Kernels.honest_host, Kernels.wellTyped_host⟩)

end Step

end Canonical

end TensorGraph
