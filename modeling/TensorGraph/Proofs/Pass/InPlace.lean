import TensorGraph.Proofs.Pass.Placement

/-! In-place marks: the program with marks computes the same, and a mark is on an operand of the type of the
result that nobody needs any more. -/
namespace TensorGraph

open Checked Rebuilding

/-- Placed operations, some of which overwrite an operand of the type of their result. -/
def Discipline.marked (target : Location) (scope : Scope) : Discipline :=
  { Discipline.placed target scope with
    op := fun op tys place mark => (Discipline.placed target scope).op op tys place none ∧
      ∀ i, mark = some i → ¬ op.isTransfer ∧ (scope.typed → op.isFusable) ∧
        ∃ t, tys[i]? = some t ∧ ∀ ty, op.infer tys = .ok ty → t.Alike ty }

theorem Discipline.marked_of_placed (target : Location) (scope : Scope) :
    (Discipline.placed target scope).Implies (.marked target scope) where
  op op tys place mark rule := by
    obtain ⟨rfl, placed⟩ := rule
    exact ⟨⟨rfl, placed⟩, fun i none => by cases none⟩
  leaf _ := id
  cell _ := id
  typed := id

theorem Discipline.congruent_marked (target : Location) (scope : Scope) :
    (Discipline.marked target scope).Congruent := by
  rintro op tys tys' place mark ⟨rule, overwrites⟩ alike places
  refine ⟨congruent_placed target scope rule alike places, fun i marked => ?_⟩
  obtain ⟨computes, fusable, t, atI, same⟩ := overwrites i marked
  obtain ⟨inTys, rfl⟩ := List.getElem?_eq_some_iff.mp atI
  have inTys' : i < tys'.length := by rwa [← alike.length_eq]
  refine ⟨computes, fusable, tys'[i], List.getElem?_eq_getElem inTys', fun ty inferred => ?_⟩
  have back : List.Forall₂ Ty.Alike tys' tys := alike.flip.imp fun _ _ same => Ty.Alike.symm same
  have here : tys[i].Alike tys'[i] := alike.get inTys inTys'
  exact here.symm.trans (same ty (Op.infer_congr inferred back))

/-- Without marks, nothing is overwritten. -/
theorem Program.overwritesSafely_of_placed {p : Program} {target : Location} {scope : Scope}
    (valid : p.Valid (.placed target scope)) : p.OverwritesSafely := by
  intro n live i marked
  obtain ⟨tys, ty, x, known⟩ := valid.operation live
  rw [known.rule.1] at marked
  cases marked

namespace InPlace

variable {c : Context} {p : Program} {scope : Scope}

/-- The last reader of a variable is read by nobody later. -/
theorem last_of_lastReader {d : Discipline} (valid : p.Valid d) {n r : Node} {v : VarId}
    (live : n ∈ p.liveNodes) (found : lastReader? p.liveNodes v = some r) (same : r.id = n.id) :
    ∀ k ∈ p.liveNodes, n.output < k.output → v ∉ k.inputs := by
  intro k liveK after reads
  have liveR : r ∈ p.liveNodes := List.mem_of_mem_filter (List.mem_of_getLast? found)
  obtain rfl : r = n := by
    have atR := valid.graph.live_mem liveR
    rw [same, valid.graph.live_mem live] at atR
    exact (Option.some.inj atR).symm
  have sorted : p.liveNodes.Pairwise fun a b => a.output < b.output := valid.graph.live_sorted
  have readers : k ∈ p.liveNodes.filter fun n => n.inputs.contains v :=
    List.mem_filter.mpr ⟨liveK, by simpa using reads⟩
  obtain ⟨front, split⟩ := List.getLast?_eq_some_iff.mp found
  have sortedReaders := sorted.sublist (List.filter_sublist (p := fun n => n.inputs.contains v))
  rw [split] at readers sortedReaders
  rcases List.mem_append.mp readers with early | last
  · exact Nat.lt_asymm after ((List.pairwise_append.mp sortedReaders).2.2 k early r (by simp))
  · rw [List.mem_singleton.mp last] at after
    exact Nat.lt_irrefl _ after

theorem isFusable_of_elementwise {op : Op} (pointwise : op.capability = .elementwise)
    (notCast : ∀ k, op ≠ .cast k) : op.isFusable := by
  cases op with
  | cast k => exact absurd rfl (notCast k)
  | unary _ => rfl
  | binary _ => rfl
  | fused _ => rfl
  | _ => cases pointwise

variable [BlockRoutine]

/-- A mark is on an operand that the operation may overwrite. -/
theorem target?_spec (c : Context) (valid : p.Valid (.placed c.target scope)) {n : Node}
    (live : n ∈ p.liveNodes) {tys : List Ty} {ty : Ty} {x : Var}
    (known : p.Operation (.placed c.target scope) n tys ty x) :
    match target? c p p.liveNodes n with
    | .ok none => True
    | .ok (some i) => ¬ n.op.isTransfer ∧ (scope.typed → n.op.isFusable) ∧ (∃ v, n.inputs[i]? = some v ∧ p.Spares n v) ∧
        ∃ t, tys[i]? = some t ∧ t.Alike ty
    | .error _ => ¬ c.Plain := by
  obtain ⟨-, l, place, there, -, allowed⟩ := known.rule
  unfold target?
  by_cases skips : n.op.isTransfer || n.op.capability != .elementwise
  · simp [skips]
  simp only [Bool.or_eq_true, not_or, Bool.not_eq_true] at skips
  obtain ⟨computes, elementwise⟩ := skips
  have capability : n.op.capability = .elementwise := by simpa using elementwise
  simp only [computes, elementwise, Bool.or_self, place]
  cases table : c.table l with
  | error e =>
    intro plain
    rw [plain.target, or_self] at there
    subst there
    cases table
  | ok t =>
    simp only [ok_bind]
    by_cases unsupported : !t.supportsInPlace .elementwise
    · rw [if_pos unsupported]
      trivial
    rw [if_neg unsupported, Graph.ty_eq_ok.mpr ⟨x, known.atOutput, rfl⟩, ok_bind]
    simp only [pure_eq]
    cases found : n.inputs.findIdx? (overwritable p p.liveNodes n x.ty) with
    | none => trivial
    | some i =>
      obtain ⟨inInputs, holds, -⟩ := List.findIdx?_eq_some_iff_getElem.mp found
      have inTys : i < tys.length := by rwa [← known.types.length_eq]
      obtain ⟨y, atV, same⟩ := known.types.get inInputs inTys
      simp only [List.get_eq_getElem] at atV same
      unfold overwritable at holds
      cases produced : p.graph.producer? n.inputs[i] with
      | none => simp [produced] at holds
      | some m =>
        simp only [produced, atV, Bool.and_eq_true, Bool.not_eq_true', beq_iff_eq,
          Option.any_eq_true] at holds
        obtain ⟨⟨⟨⟨notUpload, notRoot⟩, kind⟩, rank⟩, r, last, readsLast⟩ := holds
        have alike : tys[i].Alike ty := by
          rw [← same]
          exact ⟨kind.trans known.alike.1, rank.trans known.alike.2⟩
        refine ⟨Bool.false_ne_true, fun typed => isFusable_of_elementwise capability ?_, ⟨n.inputs[i],
          List.getElem?_eq_getElem inInputs, ⟨m, produced, notUpload⟩, ?_, ?_⟩, tys[i],
          List.getElem?_eq_getElem inTys, alike⟩
        · rintro k isCast
          -- A cast that keeps the kind does not occur.
          obtain ⟨-, allows⟩ := allowed (by simp [computes]) tys[i] (List.getElem_mem inTys)
          have changes := (allows typed).1
          obtain ⟨first, rest, split, count, -, -, -, result, -⟩ := Op.infer_eq_ok.mp known.inferred
          rw [isCast] at changes result
          exact changes (congrArg Op.cast (result.symm.trans alike.1.symm))
        · intro root
          simp [Program.isRoot, root] at notRoot
        · exact last_of_lastReader valid live last readsLast

/-- The program with marks computes the same, and overwrites safely. -/
theorem run_meets (c : Context) (valid : p.Valid (.placed c.target scope)) (math : MathMode)
    (ts : List Tensor) (cells : Array Tensor) :
    match run c p with
    | .ok q => p.Refines q (.marked c.target scope) math ts cells True ∧ q.OverwritesSafely
    | .error _ => ¬ c.Plain := by
  have copied : match p.rebuild (p.marked (target? c p p.liveNodes)) with
      | .ok q => ∃ image, p.Copied q (target? c p p.liveNodes) image
      | .error _ => True := Program.rebuild_copied valid
  have rebuilt : match p.rebuild (p.marked (target? c p p.liveNodes)) with
      | .ok q => p.Rebuilt q (.marked c.target scope) (p.stage math ts cells True True True True)
      | .error _ => ¬ c.Plain := by
    have leaves : ∀ x : Var, x.Fits (.placed c.target scope) → x.Fits (.marked c.target scope) :=
      fun _ => Var.Fits.mono (Discipline.marked_of_placed _ _)
    refine Program.marked_meets valid leaves id (fun n live tys ty x known => ?_) math ts cells True
    have chosen := target?_spec c valid live known
    cases target : target? c p p.liveNodes n with
    | error e =>
      rw [target] at chosen
      exact chosen
    | ok mark =>
      rw [target] at chosen
      have rule : (Discipline.marked c.target scope).op n.op tys n.place mark := by
        obtain ⟨unmarked, placed⟩ := known.rule
        refine ⟨⟨rfl, placed⟩, fun i marked => ?_⟩
        subst marked
        obtain ⟨computes, fusable, -, t, atI, same⟩ := chosen
        refine ⟨computes, fusable, t, atI, fun ty' inferred => ?_⟩
        obtain rfl : ty = ty' := Except.ok.inj (known.inferred.symm.trans inferred)
        exact same
      exact fun tys' alike places => Discipline.congruent_marked _ _ rule alike places
  unfold run
  rw [valid.order_eq, ok_bind]
  have same : p.rebuild (step c p p.liveNodes) = p.rebuild (p.marked (target? c p p.liveNodes)) := rfl
  rw [same]
  cases result : p.rebuild (p.marked (target? c p p.liveNodes)) with
  | error e =>
    rw [result] at rebuilt
    exact rebuilt
  | ok q =>
    rw [result] at rebuilt copied
    obtain ⟨image, copied⟩ := copied
    refine ⟨rebuilt.refines, copied.overwritesSafely valid rebuilt.valid.graph ?_⟩
    intro n live i marked
    obtain ⟨tys, ty, x, known⟩ := valid.operation live
    have chosen := target?_spec c valid live known
    rw [marked] at chosen
    exact chosen.2.2.1

end InPlace

end TensorGraph
