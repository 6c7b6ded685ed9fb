import Mathlib.Data.List.Perm.Subperm
import TensorGraph.Op.Extent
import TensorGraph.Op.Typing
import TensorGraph.Tensor
import TensorGraph.Proofs.Logic.Checked

/-! Static types and runtime shapes agree: operands of the inferred types give a shape of the
inferred rank, or a shape error, as long as the sizes can be counted. -/
namespace TensorGraph

open Checked

/-- The error of extents that do not agree. -/
def Error.IsShape (e : Error) : Prop := ∃ op reason, e = .shape op reason

/-- The error of extents that do not agree, or the crash of extents that cannot be counted. -/
def Error.OfExtents (e : Error) : Prop := e.IsShape ∨ e = .crash

/-- The tensor has the kind and the rank of the type. -/
def Tensor.HasType (t : Tensor) (ty : Ty) : Prop := t.kind = ty.kind ∧ t.rank = ty.rank

namespace Op

/-- What an operation checked when it gave its result a type. -/
structure Inferred (op : Op) (inputs : List Ty) (ty : Ty) (first : Ty) (rest : List Ty) : Prop where
  split : inputs = first :: rest
  count : inputs.length = op.arity
  sameKind : ∀ t ∈ inputs, t.kind = first.kind
  accepted : op.accepts first.kind = .ok ()
  rank : op.inferRank first rest = .ok ty.rank
  kind : ty.kind = op.resultKind first.kind
  unplaced : ty.place = none

theorem typed_eq_ok {op : Op} {α : Type} {r : Except String α} {a : α} :
    op.typed r = .ok a ↔ r = .ok a := by
  cases r <;> simp [typed, Except.mapError]

theorem infer_eq_ok {op : Op} {inputs : List Ty} {ty : Ty} :
    op.infer inputs = .ok ty ↔ ∃ first rest, op.Inferred inputs ty first rest := by
  constructor
  · intro ran
    simp only [infer] at ran
    split at ran
    · cases ran
    rename_i count
    split at ran
    · cases ran
    rename_i first rest
    split at ran
    · cases ran
    rename_i alike
    obtain ⟨⟨⟩, accepted, ran⟩ := bind_eq_ok.mp ran
    obtain ⟨rank, ranked, ran⟩ := bind_eq_ok.mp ran
    cases ran
    refine ⟨first, rest, rfl, not_not.mp count, ?_, typed_eq_ok.mp accepted, ranked, rfl, rfl⟩
    intro t member
    rcases List.mem_cons.mp member with rfl | inRest
    · rfl
    · have none : rest.find? (fun t => t.kind != first.kind) = none := by
        cases found : rest.find? fun t => t.kind != first.kind with
        | none => rfl
        | some other => exact absurd found (alike other)
      simpa using List.find?_eq_none.mp none t inRest
  · rintro ⟨first, rest, inferred⟩
    obtain ⟨rfl, count, sameKind, accepted, rank, kind, unplaced⟩ := inferred
    have none : rest.find? (fun t => t.kind != first.kind) = none := by
      refine List.find?_eq_none.mpr fun t member => ?_
      simpa using sameKind t (List.mem_cons_of_mem _ member)
    simp only [infer, if_neg (not_not.mpr count), none, typed_eq_ok.mpr accepted, ok_bind, rank]
    rcases ty with ⟨k, r, p⟩
    simp only at kind unplaced ⊢
    rw [kind, unplaced]
    rfl

theorem foldRank_congr {op : Op} {rank : Nat} {rest rest' : List Ty}
    (alike : List.Forall₂ (fun a b : Ty => a.kind = b.kind ∧ a.rank = b.rank) rest rest') :
    foldRank op rank rest = foldRank op rank rest' := by
  induction alike generalizing rank with
  | nil => rfl
  | cons head tail ih => simp only [foldRank, head.2, ih]

/-- Inference looks at kinds and ranks only. -/
theorem infer_congr {op : Op} {inputs inputs' : List Ty} {ty : Ty}
    (ran : op.infer inputs = .ok ty)
    (alike : List.Forall₂ (fun a b : Ty => a.kind = b.kind ∧ a.rank = b.rank) inputs inputs') :
    op.infer inputs' = .ok ty := by
  obtain ⟨first, rest, rfl, count, sameKind, accepted, rank, kind, unplaced⟩ := infer_eq_ok.mp ran
  cases alike with
  | @cons _ first' _ rest' head tail =>
    refine infer_eq_ok.mpr ⟨first', rest', rfl, ?_, ?_, ?_, ?_, ?_, unplaced⟩
    · rw [← count]
      simp [tail.length_eq]
    · intro t member
      rcases List.mem_cons.mp member with rfl | inRest
      · rfl
      · obtain ⟨i, inRest', rfl⟩ := List.mem_iff_getElem.mp inRest
        have inOld : i < rest.length := by rwa [tail.length_eq]
        have sameAsOld : rest[i].kind = rest'[i].kind := (tail.get inOld inRest').1
        rw [← sameAsOld, ← head.1]
        exact sameKind _ (List.mem_cons_of_mem _ (List.getElem_mem inOld))
    · rw [← head.1]
      exact accepted
    · rw [← rank]
      cases op with
      | unary f => simp only [inferRank, head.2]
      | binary f => simp only [inferRank, head.2, foldRank_congr tail]
      | cast k => simp only [inferRank, head.2]
      | fused e => simp only [inferRank, head.2, foldRank_congr tail]
      | reduce f axis => cases axis <;> simp only [inferRank, head.2]
      | matmul =>
        cases tail with
        | nil => rfl
        | cons second _ => simp only [inferRank, head.2, second.2]
      | toDevice n => simp only [inferRank, head.2]
      | toHost => simp only [inferRank, head.2]
      | reshape shape => rfl
      | transpose perm => simp only [inferRank, head.2]
    · rw [← head.1]
      exact kind

end Op

namespace Shape

theorem broadcast_ok {name : String} {a b joined : Shape} (ran : broadcast name a b = .ok joined) :
    (a = joined ∨ a = []) ∧ (b = joined ∨ b = []) ∧
      broadcastRank? a.length b.length = some joined.length := by
  unfold broadcast at ran
  split at ran
  · rename_i left
    cases ran
    rcases left with rfl | rfl
    · simp [broadcastRank?]
    · simp [broadcastRank?]
  · rename_i notLeft
    split at ran
    · rename_i right
      cases ran
      subst right
      have long : b.length ≠ 0 := fun none => notLeft (.inl (List.length_eq_zero_iff.mp none).symm)
      simp [broadcastRank?, Ne.symm long, long]
    · cases ran

theorem broadcast_error {name : String} {a b : Shape} {e : Error}
    (ran : broadcast name a b = .error e) : e.IsShape := by
  unfold broadcast at ran
  split at ran
  · cases ran
  split at ran
  · cases ran
  · cases ran
    exact ⟨_, _, rfl⟩

/-- Every operand of an elementwise operation has the shape of the result or no axes. -/
theorem broadcastAll_ok {name : String} {first joined : Shape} {rest : List Shape}
    (ran : first.broadcastAll name rest = .ok joined) :
    ∀ s ∈ first :: rest, s = joined ∨ s = [] := by
  induction rest generalizing first with
  | nil =>
    cases ran
    intro s member
    exact .inl (List.mem_singleton.mp member)
  | cons second rest ih =>
    obtain ⟨both, atHead, atRest⟩ := bind_eq_ok.mp ran
    obtain ⟨left, right, -⟩ := broadcast_ok atHead
    have covers := ih atRest
    have joint : both = joined ∨ both = [] := covers both (by simp)
    intro s member
    rcases List.mem_cons.mp member with rfl | member
    · rcases left with rfl | none
      · exact joint
      · exact .inr none
    · rcases List.mem_cons.mp member with rfl | member
      · rcases right with rfl | none
        · exact joint
        · exact .inr none
      · exact covers s (List.mem_cons_of_mem _ member)

theorem broadcastAll_error {name : String} {first : Shape} {rest : List Shape} {e : Error}
    (ran : first.broadcastAll name rest = .error e) : e.IsShape := by
  induction rest generalizing first with
  | nil => cases ran
  | cons second rest ih =>
    rcases bind_eq_error.mp ran with atHead | ⟨both, -, atRest⟩
    · exact broadcast_error atHead
    · exact ih atRest

theorem broadcastAll_rank (op : Op) {name : String} {first joined : Shape} {rest : List Shape}
    {tys : List Ty} {rank : Nat} (ran : first.broadcastAll name rest = .ok joined)
    (ranks : List.Forall₂ (fun s (t : Ty) => List.length s = t.rank) rest tys)
    (folded : foldRank op first.length tys = .ok rank) : joined.length = rank := by
  induction ranks generalizing first with
  | nil =>
    cases ran
    cases folded
    rfl
  | cons head tail ih =>
    obtain ⟨both, atHead, atRest⟩ := bind_eq_ok.mp ran
    obtain ⟨-, -, ranked⟩ := broadcast_ok atHead
    simp only [foldRank, ← head, ranked] at folded
    exact ih atRest folded

end Shape

namespace Op

theorem isPermutation_spec {perm : List Nat} {rank : Nat} (permutes : isPermutation perm rank) :
    perm.length = rank ∧ ∀ i < rank, i ∈ perm := by
  simpa [isPermutation] using permutes

theorem perm_of_isPermutation {perm : List Nat} {rank : Nat} (permutes : isPermutation perm rank) :
    (List.range rank).Perm perm := by
  obtain ⟨length, covers⟩ := isPermutation_spec permutes
  have subset : List.range rank ⊆ perm := fun i member => covers i (List.mem_range.mp member)
  exact (List.subperm_of_subset List.nodup_range subset).perm_of_length_le (by simp [length])

/-- A permutation has no entry outside its rank. -/
theorem lt_of_mem_permutation {perm : List Nat} {rank : Nat} (permutes : isPermutation perm rank) :
    ∀ i ∈ perm, i < rank := by
  intro i member
  exact List.mem_range.mp ((perm_of_isPermutation permutes).mem_iff.mpr member)

theorem permuted_ok {shape : Shape} {perm : List Nat} (inRange : ∀ i ∈ perm, i < shape.length) :
    ∃ s, shape.permuted perm = .ok s ∧ s.length = perm.length := by
  have found : ∃ s, (perm.mapM fun p => shape[p]?) = some s := by
    induction perm with
    | nil => exact ⟨[], rfl⟩
    | cons p perm ih =>
      obtain ⟨s, rest⟩ := ih fun i member => inRange i (List.mem_cons_of_mem _ member)
      have inShape : p < shape.length := inRange p (by simp)
      have atP : shape[p]? = some (shape.get ⟨p, inShape⟩) := List.getElem?_eq_getElem inShape
      exact ⟨shape.get ⟨p, inShape⟩ :: s, by simp [List.mapM_cons, atP, rest]⟩
  obtain ⟨s, found⟩ := found
  refine ⟨s, by simp [Shape.permuted, found], ?_⟩
  exact (mapM_eq_some.mp found).length_eq.symm

/-- A transposition that has a type is by a permutation of the axes. -/
theorem permutes_of_inferRank {perm : List Nat} {first : Ty} {rest : List Ty} {rank : Nat}
    (ran : (transpose perm).inferRank first rest = .ok rank) : isPermutation perm first.rank ∧ first.rank = rank := by
  simp only [inferRank] at ran
  split at ran
  · exact ⟨‹_›, Except.ok.inj ran⟩
  · cases ran

/-- The extents of a transposed value are those of the operand in the order of the permutation. -/
theorem permuted_of_outputShape {perm : List Nat} {s out : Shape} (ran : (transpose perm).outputShape [s] = .ok out) :
    s.permuted perm = .ok out := by
  have counted : ¬ ([s] : List Shape).length ≠ (transpose perm).arity := by simp [arity]
  simp only [outputShape, if_neg counted] at ran
  split at ran
  · exact ran
  · cases ran

/-- The elements of a new shape, or those of the operand that is to be viewed under it, cannot be counted. -/
def Uncounted (op : Op) (shapes : List Shape) : Prop :=
  ∃ target first, op = reshape target ∧ first ∈ shapes ∧ ¬ (Shape.counts target ∧ Shape.counts first)

/-- Operands of the inferred types have a result of the inferred rank, or extents that do not
agree, unless a new shape has too many elements to count. -/
theorem outputShape_typed {op : Op} {inputs : List Ty} {ty : Ty} {shapes : List Shape}
    (ran : op.infer inputs = .ok ty)
    (ranks : List.Forall₂ (fun s (t : Ty) => List.length s = t.rank) shapes inputs) :
    (∃ s, op.outputShape shapes = .ok s ∧ s.length = ty.rank) ∨
      ∃ e, op.outputShape shapes = .error e ∧ (e.IsShape ∨ e = .crash ∧ op.Uncounted shapes) := by
  obtain ⟨first, rest, rfl, count, -, -, rank, -, -⟩ := infer_eq_ok.mp ran
  cases ranks with
  | @cons shape _ shapes _ head tail =>
    have counted : ¬ (shape :: shapes).length ≠ op.arity := by
      rw [← count]
      simp [tail.length_eq]
    simp only [outputShape, if_neg counted]
    cases op with
    | unary f => exact .inl ⟨shape, rfl, head.trans (Except.ok.inj rank)⟩
    | binary f =>
      cases joined : shape.broadcastAll (binary f).name shapes with
      | ok s =>
        refine .inl ⟨s, rfl, Shape.broadcastAll_rank (.binary f) joined tail ?_⟩
        rw [head]
        exact rank
      | error e => exact .inr ⟨e, rfl, .inl (Shape.broadcastAll_error joined)⟩
    | cast k => exact .inl ⟨shape, rfl, head.trans (Except.ok.inj rank)⟩
    | fused e =>
      cases joined : shape.broadcastAll (fused e).name shapes with
      | ok s =>
        refine .inl ⟨s, rfl, Shape.broadcastAll_rank (.fused e) joined tail ?_⟩
        rw [head]
        exact rank
      | error e => exact .inr ⟨e, rfl, .inl (Shape.broadcastAll_error joined)⟩
    | reduce f axis =>
      cases axis with
      | none => exact .inl ⟨[], rfl, Except.ok.inj rank⟩
      | some axis =>
        simp only [inferRank] at rank
        split at rank
        · rename_i inRange
          have inShape : axis < shape.length := by rwa [head]
          refine .inl ⟨shape.eraseIdx axis, by simp [inShape], ?_⟩
          rw [List.length_eraseIdx_of_lt inShape, head]
          exact Except.ok.inj rank
        · cases rank
    | matmul =>
      simp only
      split
      · rename_i s product
        refine .inl ⟨s, rfl, ?_⟩
        cases tail with
        | nil => simp [arity] at count
        | @cons second u shapes us head2 tail2 =>
          simp only [inferRank] at rank
          split at rank
          · rw [← Except.ok.inj rank, ← head2]
            simp only [List.headD_cons, productShape?] at product
            split at product
            · split at product <;> cases product
              rfl
            · split at product <;> cases product
              rfl
            · cases product
          · cases rank
      · exact .inr ⟨_, rfl, .inl ⟨_, _, rfl⟩⟩
    | toDevice n => exact .inl ⟨shape, rfl, head.trans (Except.ok.inj rank)⟩
    | toHost => exact .inl ⟨shape, rfl, head.trans (Except.ok.inj rank)⟩
    | reshape target =>
      by_cases counted : Shape.counts target ∧ Shape.counts shape
      · by_cases same : Shape.volume target = shape.volume
        · exact .inl ⟨target, by simp [counted, same], Except.ok.inj rank⟩
        · exact .inr ⟨_, by simp only [counted, if_neg same]; rfl, .inl ⟨_, _, rfl⟩⟩
      · exact .inr ⟨.crash, by simp [counted], .inr ⟨rfl, target, shape, rfl, by simp, counted⟩⟩
    | transpose perm =>
      obtain ⟨permutes, sameRank⟩ := permutes_of_inferRank rank
      obtain ⟨length, -⟩ := isPermutation_spec permutes
      have inRange : ∀ i ∈ perm, i < shape.length := by
        rw [head]
        exact lt_of_mem_permutation permutes
      obtain ⟨s, permuted, sLength⟩ := permuted_ok inRange
      have matching : perm.length = shape.length := by rw [length, head]
      refine .inl ⟨s, by simp only [if_pos matching, permuted], ?_⟩
      rw [sLength, length, sameRank]

theorem permuted_error {shape : Shape} {perm : List Nat} {e : Error} (ran : shape.permuted perm = .error e) :
    e = .crash := by
  unfold Shape.permuted at ran
  split at ran <;> cases ran
  rfl

/-- Extents that give no result are told of, also where nothing is known of the operands; a permutation may still
point outside the shape, and a count may overflow. -/
theorem outputShape_error {op : Op} {shapes : List Shape} {e : Error} (ran : op.outputShape shapes = .error e) :
    e.OfExtents := by
  simp only [outputShape] at ran
  split at ran
  · cases ran
    exact .inl ⟨_, _, rfl⟩
  cases shapes with
  | nil =>
    cases ran
    exact .inr rfl
  | cons first rest =>
    cases op with
    | unary f => cases ran
    | binary f => exact .inl (Shape.broadcastAll_error ran)
    | cast k => cases ran
    | fused e => exact .inl (Shape.broadcastAll_error ran)
    | reduce f axis =>
      cases axis with
      | none => cases ran
      | some axis =>
        simp only at ran
        split at ran <;> cases ran
        exact .inl ⟨_, _, rfl⟩
    | matmul =>
      simp only at ran
      split at ran <;> cases ran
      exact .inl ⟨_, _, rfl⟩
    | toDevice n => cases ran
    | toHost => cases ran
    | reshape target =>
      simp only at ran
      split at ran
      · cases ran
        exact .inr rfl
      · split at ran <;> cases ran
        exact .inl ⟨_, _, rfl⟩
    | transpose perm =>
      simp only at ran
      split at ran
      · exact .inr (permuted_error ran)
      · cases ran
        exact .inl ⟨_, _, rfl⟩

end Op

end TensorGraph
