import TensorGraph.Pass.Fusion
import TensorGraph.Proofs.Pass.Cluster

/-! Expressions under construction. What is added to an expression keeps the steps before it, so a variable
or an operation that was added has its number for good, and the step of that number computes it. -/
namespace TensorGraph

open Checked

namespace Expr

theorem checkFrom_append {inputs : Nat} {k : Kind} {i : Nat} {steps more : List Step} :
    checkFrom inputs k i (steps ++ more) = .ok () ↔
      checkFrom inputs k i steps = .ok () ∧ checkFrom inputs k (i + steps.length) more = .ok () := by
  induction steps generalizing i with
  | nil => simp [checkFrom]
  | cons step steps ih =>
    simp only [List.cons_append, checkFrom, bind_eq_ok, ih, List.length_cons]
    rw [Nat.add_right_comm, Nat.add_assoc]
    constructor
    · rintro ⟨a, here, rest, last⟩
      exact ⟨⟨a, here, rest⟩, last⟩
    · rintro ⟨⟨a, here, rest⟩, last⟩
      exact ⟨a, here, rest, last⟩

theorem checkStep_iff {inputs i : Nat} {k : Kind} {step : Step} :
    checkStep inputs k i step = .ok () ↔
      InRange inputs i step ∧ ∀ f a, step = .unary f a → f.accepts k = .ok () := by
  cases step with
  | load j =>
    by_cases inside : j < inputs
    · simp [checkStep, InRange, inside]
    · simp [checkStep, InRange, inside]
  | unary f a =>
    simp only [checkStep, InRange, Step.unary.injEq]
    cases accepted : f.accepts k with
    | error e => simp [accepted]
    | ok u =>
      by_cases inside : a < i
      · simp [inside, accepted]
      · simp [inside]
  | binary f a b =>
    by_cases inside : a < i ∧ b < i
    · simp [checkStep, InRange, inside]
    · simp [checkStep, InRange, inside]

theorem checkFrom_mono {inputs inputs' : Nat} (more : inputs ≤ inputs') {k : Kind} {i : Nat}
    {steps : List Step} (checked : checkFrom inputs k i steps = .ok ()) :
    checkFrom inputs' k i steps = .ok () := by
  induction steps generalizing i with
  | nil => rfl
  | cons step steps ih =>
    obtain ⟨⟨⟩, here, rest⟩ := bind_eq_ok.mp checked
    refine bind_eq_ok.mpr ⟨(), ?_, ih rest⟩
    obtain ⟨inRange, accepted⟩ := checkStep_iff.mp here
    refine checkStep_iff.mpr ⟨?_, accepted⟩
    cases step with
    | load j => exact Nat.lt_of_lt_of_le inRange more
    | unary f a => exact inRange
    | binary f a b => exact inRange

end Expr

/-- An expression whose last step loads an input: its result is not computed by a step of its own. -/
def Expr.endsInLoad (e : Expr) : Bool :=
  match e.steps.getLast? with
  | some (.load _) => true
  | _ => false

/-- A fused operation whose expression ends in a load. -/
def Op.endsInLoad : Op → Bool
  | .fused e => e.endsInLoad
  | _ => false

namespace Fusion

namespace Tree

variable {α : Type} [Scalar α]

/-- Every step is defined on the kind and refers to inputs and earlier steps. -/
def Checked (t : Tree) (k : Kind) : Prop := Expr.checkFrom t.inputs.length k 0 t.steps = .ok ()

/-- The results of the steps at one place, when the variables have these elements there. -/
def Results (t : Tree) (math : MathMode) (x : VarId → α) (regs : List α) : Prop :=
  Expr.stepsAt math (fun j => t.inputs[j]?.map x) [] t.steps = some regs

/-- More steps, and the inputs of `news` if they were not there. -/
structure Grows (t t' : Tree) (k : Kind) (news : VarId → Prop) : Prop where
  inputs : t.inputs <+: t'.inputs
  steps : t.steps.length ≤ t'.steps.length
  members : ∀ u, u ∈ t'.inputs ↔ u ∈ t.inputs ∨ news u
  distinct : t.inputs.Nodup → t'.inputs.Nodup
  checked : t.Checked k → t'.Checked k

/-- Step `i` computes the variable `v`, and the steps before compute what they did. -/
def Computes (t t' : Tree) (math : MathMode) (x : VarId → α) (i : Nat) (v : VarId) : Prop :=
  ∀ regs, t.Results math x regs →
    ∃ regs', t'.Results math x regs' ∧ regs <+: regs' ∧ regs'[i]? = some (x v)

theorem push_checked {t : Tree} {k : Kind} {step : Step} (checked : t.Checked k)
    (fine : Expr.checkStep t.inputs.length k t.steps.length step = .ok ()) :
    (t.push step).1.Checked k := by
  refine Expr.checkFrom_append.mpr ⟨checked, ?_⟩
  rw [Nat.zero_add]
  exact bind_eq_ok.mpr ⟨(), fine, rfl⟩

theorem push_grows {t : Tree} {k : Kind} {step : Step}
    (fine : t.Checked k → Expr.checkStep t.inputs.length k t.steps.length step = .ok ()) :
    t.Grows (t.push step).1 k fun _ => False where
  inputs := List.prefix_rfl
  steps := by simp [push]
  members u := by simp [push]
  distinct := id
  checked checked := push_checked checked (fine checked)

theorem push_results {t : Tree} {math : MathMode} {x : VarId → α} {regs : List α}
    (results : t.Results math x regs) {step : Step} {y : α}
    (here : Expr.stepAt math (fun j => t.inputs[j]?.map x) regs step = some y) :
    (t.push step).1.Results math x (regs ++ [y]) ∧ (regs ++ [y])[(t.push step).2]? = some y := by
  have length := Expr.stepsAt_length results
  constructor
  · refine (Expr.stepsAt_append).trans ?_
    have before : Expr.stepsAt math (fun j => (t.push step).1.inputs[j]?.map x) [] t.steps =
        some regs := results
    rw [before, Option.bind_some]
    exact Option.bind_eq_some_iff.mpr ⟨y, here, rfl⟩
  · simp only [push]
    rw [List.getElem?_append_right (by simp [length]), length]
    simp

theorem results_mono {t : Tree} {vs : List VarId} (inputs : t.inputs <+: vs) {math : MathMode}
    {x : VarId → α} {regs : List α} (results : t.Results math x regs) :
    Results ⟨t.steps, vs⟩ math x regs := by
  refine Expr.stepsAt_mono (fun j y got => ?_) results
  obtain ⟨v, atJ, rfl⟩ := Option.map_eq_some_iff.mp got
  obtain ⟨more, extended⟩ := inputs
  have inside := (List.getElem?_eq_some_iff.mp atJ).1
  rw [← extended, List.getElem?_append_left inside, atJ]
  rfl

/-- A variable is loaded by a step of its own, which is shared by all who read it. -/
theorem load_spec (t : Tree) (v : VarId) (k : Kind) (math : MathMode) (x : VarId → α) :
    t.Grows (t.load v).1 k (· = v) ∧ t.Computes (t.load v).1 math x (t.load v).2 v ∧
      (t.load v).2 < (t.load v).1.steps.length := by
  unfold load
  cases found : t.inputs.idxOf? v with
  | some j =>
    obtain ⟨inInputs, same, -⟩ := List.idxOf?_eq_some_iff.mp found
    have atJ : t.inputs[j]? = some v := by
      rw [List.getElem?_eq_getElem inInputs]
      simpa using same
    have member : v ∈ t.inputs := List.mem_of_getElem? atJ
    have members : ∀ u, u ∈ t.inputs ↔ u ∈ t.inputs ∨ u = v := by
      intro u
      constructor
      · exact .inl
      · rintro (old | rfl)
        · exact old
        · exact member
    simp only
    cases loaded : t.steps.idxOf? (.load j) with
    | some i =>
      obtain ⟨inSteps, sameStep, -⟩ := List.idxOf?_eq_some_iff.mp loaded
      have atI : t.steps[i]? = some (.load j) := by
        rw [List.getElem?_eq_getElem inSteps]
        simpa using sameStep
      refine ⟨⟨List.prefix_rfl, Nat.le_refl _, members, id, id⟩, fun regs results => ?_, inSteps⟩
      have read := Expr.stepsAt_load results atI
      rw [List.length_nil, Nat.zero_add, atJ] at read
      exact ⟨regs, results, List.prefix_rfl, read⟩
    | none =>
      have grows : t.Grows (t.push (.load j)).1 k fun _ => False :=
        push_grows fun _ => Expr.checkStep_iff.mpr ⟨inInputs, fun _ _ wrong => by cases wrong⟩
      refine ⟨⟨grows.inputs, grows.steps, members, id, grows.checked⟩, fun regs results => ?_, by simp [push]⟩
      have here : Expr.stepAt math (fun j => t.inputs[j]?.map x) regs (.load j) = some (x v) := by
        simp [Expr.stepAt, atJ]
      obtain ⟨results', read⟩ := push_results results here
      exact ⟨_, results', List.prefix_append _ _, read⟩
  | none =>
    have extends_ : t.inputs <+: t.inputs ++ [v] := List.prefix_append _ _
    have grows : Tree.Grows { t with inputs := t.inputs ++ [v] }
        (Tree.push { t with inputs := t.inputs ++ [v] } (.load t.inputs.length)).1 k fun _ => False :=
      push_grows fun _ => Expr.checkStep_iff.mpr
        ⟨by simp [Expr.InRange], fun _ _ wrong => by cases wrong⟩
    refine ⟨⟨extends_.trans grows.inputs, grows.steps, ?_, fun distinct => ?_, fun checked => grows.checked ?_⟩,
      fun regs results => ?_, by simp [push]⟩
    · intro u
      rw [grows.members]
      simp
    · have outside : v ∉ t.inputs := List.idxOf?_eq_none_iff.mp found
      refine List.nodup_append.mpr ⟨distinct, List.pairwise_singleton _ _, fun u member w new same => outside ?_⟩
      rwa [← List.mem_singleton.mp new, ← same]
    · exact Expr.checkFrom_mono (by simp) checked
    · have wider : Tree.Results { t with inputs := t.inputs ++ [v] } math x regs :=
        results_mono extends_ results
      have here : Expr.stepAt math (fun j => (t.inputs ++ [v])[j]?.map x) regs
          (.load t.inputs.length) = some (x v) := by simp [Expr.stepAt]
      obtain ⟨results', read⟩ := push_results wider here
      exact ⟨_, results', List.prefix_append _ _, read⟩

theorem Grows.trans {t t' t'' : Tree} {k : Kind} {news news' : VarId → Prop}
    (first : t.Grows t' k news) (second : t'.Grows t'' k news') :
    t.Grows t'' k fun u => news u ∨ news' u where
  inputs := first.inputs.trans second.inputs
  steps := Nat.le_trans first.steps second.steps
  members u := by rw [second.members, first.members, or_assoc]
  distinct distinct := second.distinct (first.distinct distinct)
  checked checked := second.checked (first.checked checked)

theorem Grows.congr {t t' : Tree} {k : Kind} {news news' : VarId → Prop} (grows : t.Grows t' k news)
    (same : ∀ u, news u ↔ news' u) : t.Grows t' k news' :=
  { grows with members := fun u => by rw [grows.members, same] }

section Expand

variable {g : Graph} {d : Discipline} {absorbed : List VarId}

/-- Appends what computes an operand: a load, or the operation behind it. -/
def operand (g : Graph) (absorbed : List VarId) (depth : Nat) (v : VarId) (t : Tree) :
    Except Error (Tree × Nat) :=
  match g.producer? v with
  | some producer =>
    if absorbed.contains v then expand g absorbed depth producer t else pure (t.load v)
  | none => pure (t.load v)

/-- Appends what computes the operands, one after the other. -/
def operands (g : Graph) (absorbed : List VarId) (depth : Nat) :
    List VarId → Tree → List Nat → Except Error (Tree × List Nat)
  | [], t, args => .ok (t, args)
  | v :: vs, t, args => do
    let (t, i) ← operand g absorbed depth v t
    operands g absorbed depth vs t (args ++ [i])

theorem expand_succ (depth : Nat) (n : Node) (t : Tree) :
    expand g absorbed (depth + 1) n t = (do
      let (t, args) ← operands g absorbed depth n.inputs t []
      t.apply n args) := by
  have folds : ∀ (vs : List VarId) (t : Tree) (args : List Nat),
      (vs.foldlM (fun (s : Tree × List Nat) v => do
        let (t, i) ← match g.producer? v with
          | some producer =>
            if absorbed.contains v then expand g absorbed depth producer s.1 else pure (s.1.load v)
          | none => pure (s.1.load v)
        return (t, s.2 ++ [i])) (t, args) : Except Error (Tree × List Nat)) =
        operands g absorbed depth vs t args := by
    intro vs
    induction vs with
    | nil => intros; rfl
    | cons v vs ih =>
      intro t args
      rw [List.foldlM_cons, operands, operand]
      cases g.producer? v with
      | none => exact ih _ _
      | some producer =>
        by_cases inside : absorbed.contains v
        · simp only [inside, ↓reduceIte]
          cases expand g absorbed depth producer t with
          | error e => rfl
          | ok result => exact ih _ _
        · simp only [inside, Bool.false_eq_true, ↓reduceIte]
          exact ih _ _
  rw [expand]
  exact congrArg (· >>= _) (folds n.inputs t [])

variable {k : Kind} {math : MathMode} {x : VarId → α} {faithful : Prop}

/-- What was added for a variable computes it. -/
structure Adds (t t' : Tree) (k : Kind) (math : MathMode) (x : VarId → α) (faithful : Prop)
    (news : VarId → Prop) (i : Nat) (v : VarId) : Prop where
  grows : t.Grows t' k news
  inRange : i < t'.steps.length
  computes : faithful → t.Computes t' math x i v

theorem operands_spec {depth : Nat} {news : VarId → VarId → Prop} {vs : List VarId}
    (each : ∀ v ∈ vs, ∀ t : Tree, ∃ t' i, operand g absorbed depth v t = .ok (t', i) ∧
      t.Adds t' k math x faithful (news v) i v) (t : Tree) (args : List Nat) :
    ∃ t' is, operands g absorbed depth vs t args = .ok (t', args ++ is) ∧
      t.Grows t' k (fun u => ∃ v ∈ vs, news v u) ∧ (∀ i ∈ is, i < t'.steps.length) ∧
      is.length = vs.length ∧ (faithful → ∀ regs, t.Results math x regs →
        ∃ regs', t'.Results math x regs' ∧ regs <+: regs' ∧
          List.Forall₂ (fun v i => regs'[i]? = some (x v)) vs is) := by
  induction vs generalizing t args with
  | nil =>
    refine ⟨t, [], by simp [operands], ⟨List.prefix_rfl, Nat.le_refl _, by simp, id, id⟩, by simp, rfl, ?_⟩
    exact fun _ regs results => ⟨regs, results, List.prefix_rfl, .nil⟩
  | cons v vs ih =>
    obtain ⟨t₁, i, ran, adds⟩ := each v (by simp) t
    obtain ⟨t₂, is, ranRest, grows, inside, length, computes⟩ :=
      ih (fun w member => each w (List.mem_cons_of_mem _ member)) t₁ (args ++ [i])
    refine ⟨t₂, i :: is, ?_, ?_, ?_, by simp [length], ?_⟩
    · simp only [operands, ran, ok_bind, ranRest, List.append_assoc, List.singleton_append]
    · refine (adds.grows.trans grows).congr fun u => ?_
      simp
    · intro j member
      rcases List.mem_cons.mp member with rfl | later
      · exact Nat.lt_of_lt_of_le adds.inRange grows.steps
      · exact inside j later
    · intro holds regs results
      obtain ⟨regs₁, results₁, longer₁, here⟩ := adds.computes holds regs results
      obtain ⟨regs₂, results₂, longer₂, rest⟩ := computes holds regs₁ results₁
      refine ⟨regs₂, results₂, longer₁.trans longer₂, .cons ?_ rest⟩
      obtain ⟨more, rfl⟩ := longer₂
      rw [List.getElem?_append_left (List.getElem?_eq_some_iff.mp here).1, here]

/-- The steps of an expression are added on the steps of its operands. -/
theorem graft_spec {args : List Nat} {inputs : Nat} (count : args.length = inputs) {steps : List Step}
    (t : Tree) (done : List Nat) (operandsIn : ∀ i ∈ args, i < t.steps.length)
    (doneIn : ∀ i ∈ done, i < t.steps.length)
    (checked : Expr.checkFrom inputs k done.length steps = .ok ()) :
    ∃ t' done', graft args t done steps = .ok (t', done') ∧
      done'.length = done.length + steps.length ∧ t.Grows t' k (fun _ => False) ∧
      ∀ i ∈ done', i < t'.steps.length := by
  induction steps generalizing t done with
  | nil =>
    exact ⟨t, done, by simp [graft], by simp, ⟨List.prefix_rfl, Nat.le_refl _, by simp, id, id⟩, doneIn⟩
  | cons step steps ih =>
    obtain ⟨⟨⟩, here, rest⟩ := bind_eq_ok.mp checked
    obtain ⟨inRange, accepted⟩ := Expr.checkStep_iff.mp here
    have lengthOf : ∀ i : Nat, (done ++ [i]).length = done.length + 1 := by simp
    -- A step of its own gets the next number, and all numbers so far stay in range.
    have pushes : ∀ step : Step, (t.Checked k →
        Expr.checkStep t.inputs.length k t.steps.length step = .ok ()) →
        ∃ t' done', graft args (t.push step).1 (done ++ [(t.push step).2]) steps = .ok (t', done') ∧
          done'.length = done.length + (steps.length + 1) ∧ t.Grows t' k (fun _ => False) ∧
          ∀ i ∈ done', i < t'.steps.length := by
      intro step fine
      have longer : t.steps.length < (t.push step).1.steps.length := by simp [push]
      obtain ⟨t', done', ran, length, grows, inside⟩ := ih (t.push step).1
        (done ++ [(t.push step).2])
        (fun i member => Nat.lt_trans (operandsIn i member) longer)
        (fun i member => by
          rcases List.mem_append.mp member with old | new
          · exact Nat.lt_trans (doneIn i old) longer
          · rw [List.mem_singleton.mp new]
            exact longer) (by rw [lengthOf]; exact rest)
      refine ⟨t', done', ran, by rw [length, lengthOf]; omega, ?_, inside⟩
      exact ((push_grows fine).trans grows).congr (by simp)
    cases step with
    | load j =>
      have atJ : j < args.length := by rw [count]; exact inRange
      have item : Kernel.item args j = .ok args[j] := Kernel.item_eq_ok.mpr (List.getElem?_eq_getElem atJ)
      obtain ⟨t', done', ran, length, grows, inside⟩ := ih t (done ++ [args[j]]) operandsIn
        (fun i member => by
          rcases List.mem_append.mp member with old | new
          · exact doneIn i old
          · rw [List.mem_singleton.mp new]
            exact operandsIn _ (List.getElem_mem atJ)) (by rw [lengthOf]; exact rest)
      refine ⟨t', done', ?_, by rw [length, lengthOf, List.length_cons]; omega, grows, inside⟩
      rw [graft, item, ok_bind, ran]
    | unary f a =>
      have atA : a < done.length := inRange
      have item : Kernel.item done a = .ok done[a] := Kernel.item_eq_ok.mpr (List.getElem?_eq_getElem atA)
      obtain ⟨t', done', ran, held⟩ := pushes (.unary f done[a]) fun _ => Expr.checkStep_iff.mpr
        ⟨doneIn _ (List.getElem_mem atA), by rintro f' a' ⟨⟩; exact accepted f a rfl⟩
      refine ⟨t', done', ?_, held⟩
      rw [graft, item, ok_bind]
      exact ran
    | binary f a b =>
      have atA : a < done.length := inRange.1
      have atB : b < done.length := inRange.2
      have itemA : Kernel.item done a = .ok done[a] := Kernel.item_eq_ok.mpr (List.getElem?_eq_getElem atA)
      have itemB : Kernel.item done b = .ok done[b] := Kernel.item_eq_ok.mpr (List.getElem?_eq_getElem atB)
      obtain ⟨t', done', ran, held⟩ := pushes (.binary f done[a] done[b]) fun _ =>
        Expr.checkStep_iff.mpr
          ⟨⟨doneIn _ (List.getElem_mem atA), doneIn _ (List.getElem_mem atB)⟩, by rintro f' a' ⟨⟩⟩
      refine ⟨t', done', ?_, held⟩
      rw [graft, itemA, ok_bind, itemB, ok_bind]
      exact ran

/-- The steps of an expression compute on the results of other steps what they compute on inputs. -/
theorem graft_computes {args done done' : List Nat} {steps : List Step} {t t' : Tree}
    (ran : graft args t done steps = .ok (t', done')) {load : Nat → Option α} {regs ys zs : List α}
    (results : t.Results math x regs)
    (operands : ∀ j i, args[j]? = some i → ∃ y, load j = some y ∧ regs[i]? = some y)
    (before : List.Forall₂ (fun i y => regs[i]? = some y) done ys)
    (computed : Expr.stepsAt math load ys steps = some zs) :
    ∃ regs', t'.Results math x regs' ∧ regs <+: regs' ∧
      List.Forall₂ (fun i z => regs'[i]? = some z) done' zs := by
  induction steps generalizing t done regs ys with
  | nil =>
    cases ran
    cases computed
    exact ⟨regs, results, List.prefix_rfl, before⟩
  | cons step steps ih =>
    obtain ⟨y, here, rest⟩ := Option.bind_eq_some_iff.mp computed
    have register : ∀ {a : Nat} {i : Nat} {z : α}, done[a]? = some i → ys[a]? = some z → regs[i]? = some z := by
      intro a i z atI atZ
      obtain ⟨inDone, rfl⟩ := List.getElem?_eq_some_iff.mp atI
      obtain ⟨inYs, rfl⟩ := List.getElem?_eq_some_iff.mp atZ
      exact before.get inDone inYs
    -- A step that is added computes the same, and what was computed before stays.
    have pushes : ∀ step : Step, graft args (t.push step).1 (done ++ [(t.push step).2]) steps = .ok (t', done') →
        Expr.stepAt math (fun j => t.inputs[j]?.map x) regs step = some y →
        ∃ regs', t'.Results math x regs' ∧ regs <+: regs' ∧
          List.Forall₂ (fun i z => regs'[i]? = some z) done' zs := by
      intro step ran stepped
      obtain ⟨results', last⟩ := push_results results stepped
      have longer : ∀ {i : Nat} {z : α}, regs[i]? = some z → (regs ++ [y])[i]? = some z := by
        intro i z atI
        rw [List.getElem?_append_left (List.getElem?_eq_some_iff.mp atI).1, atI]
      obtain ⟨regs', final, extends_, after⟩ := ih ran results'
        (fun j i atJ => (operands j i atJ).imp fun _ both => ⟨both.1, longer both.2⟩)
        (List.rel_append (before.imp fun _ _ => longer) (.cons last .nil)) rest
      exact ⟨regs', final, (List.prefix_append _ _).trans extends_, after⟩
    cases step with
    | load j =>
      obtain ⟨i, item, ran⟩ := bind_eq_ok.mp ran
      obtain ⟨z, loaded, atI⟩ := operands j i (Kernel.item_eq_ok.mp item)
      obtain rfl : y = z := Option.some.inj (here.symm.trans loaded)
      exact ih ran results operands (List.rel_append before (.cons atI .nil)) rest
    | unary f a =>
      obtain ⟨i, item, ran⟩ := bind_eq_ok.mp ran
      obtain ⟨z, atA, rfl⟩ := Option.map_eq_some_iff.mp here
      refine pushes _ ran ?_
      simp only [Expr.stepAt, register (Kernel.item_eq_ok.mp item) atA, Option.map_some]
    | binary f a b =>
      obtain ⟨i, itemA, ran⟩ := bind_eq_ok.mp ran
      obtain ⟨j, itemB, ran⟩ := bind_eq_ok.mp ran
      obtain ⟨z, atA, here⟩ := Option.bind_eq_some_iff.mp here
      obtain ⟨w, atB, here⟩ := Option.bind_eq_some_iff.mp here
      refine pushes _ ran ?_
      simp only [Expr.stepAt, register (Kernel.item_eq_ok.mp itemA) atA,
        register (Kernel.item_eq_ok.mp itemB) atB]
      exact here

/-- The result of an expression that does not end in a load is computed by the last of all steps. -/
theorem graft_last {args done done' : List Nat} {steps : List Step} {t t' : Tree}
    (ran : graft args t done steps = .ok (t', done')) (given : steps ≠ [])
    (computes : ∀ j, steps.getLast? ≠ some (.load j)) {i : Nat} (last : done'.getLast? = some i) :
    t'.steps.length = i + 1 := by
  induction steps generalizing t done with
  | nil => exact absurd rfl given
  | cons step steps ih =>
    cases steps with
    | cons next rest =>
      have later : ∀ j, (next :: rest).getLast? ≠ some (.load j) := by
        intro j isLoad
        exact computes j (by rw [List.getLast?_cons_cons, isLoad])
      cases step with
      | load j =>
        obtain ⟨i, -, ran⟩ := bind_eq_ok.mp ran
        exact ih ran (List.cons_ne_nil _ _) later
      | unary f a =>
        obtain ⟨i, -, ran⟩ := bind_eq_ok.mp ran
        exact ih ran (List.cons_ne_nil _ _) later
      | binary f a b =>
        obtain ⟨i, -, ran⟩ := bind_eq_ok.mp ran
        obtain ⟨j, -, ran⟩ := bind_eq_ok.mp ran
        exact ih ran (List.cons_ne_nil _ _) later
    | nil =>
      cases step with
      | load j => exact absurd rfl (computes j)
      | unary f a =>
        obtain ⟨i, -, ran⟩ := bind_eq_ok.mp ran
        cases ran
        obtain rfl : t.steps.length = _ := by simpa [push] using last
        simp
      | binary f a b =>
        obtain ⟨i, -, ran⟩ := bind_eq_ok.mp ran
        obtain ⟨j, -, ran⟩ := bind_eq_ok.mp ran
        cases ran
        obtain rfl : t.steps.length = _ := by simpa [push] using last
        simp

/-- An operand is loaded, or computed by what computes it. -/
theorem operand_spec {depth : Nat} {v : VarId} (t : Tree) (inner : v ∈ absorbed → ∃ m, g.producer? v = some m ∧
      m.op.isFusable ∧ ∃ t' i, expand g absorbed depth m t = .ok (t', i) ∧
        t.Adds t' k math x faithful (Loads g absorbed m) i v) :
    ∃ t' i, operand g absorbed depth v t = .ok (t', i) ∧ t.Adds t' k math x faithful
      (fun u => (v ∉ absorbed ∧ v = u) ∨ (v ∈ absorbed ∧
        ∃ m, g.producer? v = some m ∧ m.op.isFusable ∧ Loads g absorbed m u)) i v := by
  by_cases inside : v ∈ absorbed
  · obtain ⟨m, produced, fusable, t', i, ran, adds⟩ := inner inside
    refine ⟨t', i, ?_, adds.grows.congr fun u => ?_, adds.inRange, adds.computes⟩
    · simp only [operand, produced, List.contains_iff_mem.mpr inside, ↓reduceIte, ran]
    · simp [inside, produced, fusable]
  · obtain ⟨grows, computes, inRange⟩ := load_spec t v k math x
    refine ⟨(t.load v).1, (t.load v).2, ?_, grows.congr fun u => ?_, inRange, fun _ => computes⟩
    · unfold operand
      cases g.producer? v with
      | none => rfl
      | some m => simp [inside]
    · rw [or_iff_left fun wrong => inside wrong.1, and_iff_right inside]
      exact eq_comm

/-- What was added on the steps `args` computes the result of an operation. -/
structure Applies (t t' : Tree) (k : Kind) (math : MathMode) (x : VarId → α) (n : Node) (args : List Nat) (i : Nat) :
    Prop where
  grows : t.Grows t' k fun _ => False
  inRange : i < t'.steps.length
  last : ¬ n.op.endsInLoad → t'.steps.length = i + 1
  computes : Faithful math x n → ∀ regs, t.Results math x regs →
    List.Forall₂ (fun v i => regs[i]? = some (x v)) n.inputs args →
      ∃ regs', t'.Results math x regs' ∧ regs <+: regs' ∧ regs'[i]? = some (x n.output)

variable {n : Node} {t : Tree} {args : List Nat}

theorem apply_unary {f : Unary} (op : n.op = .unary f) (accepted : f.accepts k = .ok ()) (count : n.inputs.length = 1)
    (length : args.length = n.inputs.length) (inside : ∀ i ∈ args, i < t.steps.length) :
    ∃ t' i, t.apply n args = .ok (t', i) ∧ t.Applies t' k math x n args i := by
  obtain ⟨u, inputs⟩ : ∃ u, n.inputs = [u] := List.length_eq_one_iff.mp count
  obtain ⟨i, rfl⟩ : ∃ i, args = [i] := List.length_eq_one_iff.mp (length.trans count)
  have pushed : t.apply n [i] = .ok (t.push (.unary f i)) := by
    simp only [apply, op]
    rfl
  have grows : t.Grows (t.push (.unary f i)).1 k fun _ => False := by
    refine push_grows fun _ => Expr.checkStep_iff.mpr ⟨inside i (by simp), ?_⟩
    rintro f' a ⟨⟩
    exact accepted
  refine ⟨_, _, pushed, grows, by simp, fun _ => by simp, fun faithful regs results read => ?_⟩
  rw [inputs] at read
  cases read with
  | cons here _ =>
    have step : Expr.stepAt math (fun j => t.inputs[j]?.map x) regs (.unary f i) = some (x n.output) := by
      simp [Expr.stepAt, here, faithful.unary f u op inputs]
    obtain ⟨results', last⟩ := push_results results step
    exact ⟨_, results', List.prefix_append _ _, last⟩

theorem apply_binary {f : Binary} (op : n.op = .binary f) (count : n.inputs.length = 2)
    (length : args.length = n.inputs.length) (inside : ∀ i ∈ args, i < t.steps.length) :
    ∃ t' i, t.apply n args = .ok (t', i) ∧ t.Applies t' k math x n args i := by
  obtain ⟨u, w, inputs⟩ : ∃ u w, n.inputs = [u, w] := List.length_eq_two.mp count
  obtain ⟨i, j, rfl⟩ : ∃ i j, args = [i, j] := List.length_eq_two.mp (length.trans count)
  have pushed : t.apply n [i, j] = .ok (t.push (.binary f i j)) := by
    simp only [apply, op]
    rfl
  have grows : t.Grows (t.push (.binary f i j)).1 k fun _ => False := by
    refine push_grows fun _ => Expr.checkStep_iff.mpr ⟨⟨inside i (by simp), inside j (by simp)⟩, ?_⟩
    rintro f' a ⟨⟩
  refine ⟨_, _, pushed, grows, by simp, fun _ => by simp, fun faithful regs results read => ?_⟩
  rw [inputs] at read
  cases read with
  | cons here read =>
    cases read with
    | cons there _ =>
      have step : Expr.stepAt math (fun j => t.inputs[j]?.map x) regs (.binary f i j) = some (x n.output) := by
        simp [Expr.stepAt, here, there, faithful.binary f u w op inputs]
      obtain ⟨results', last⟩ := push_results results step
      exact ⟨_, results', List.prefix_append _ _, last⟩

theorem apply_fused {e : Expr} (op : n.op = .fused e) (accepted : e.check k = .ok ()) (count : n.inputs.length = e.inputs)
    (length : args.length = n.inputs.length) (inside : ∀ i ∈ args, i < t.steps.length) :
    ∃ t' i, t.apply n args = .ok (t', i) ∧ t.Applies t' k math x n args i := by
  obtain ⟨someSteps, steps⟩ := Expr.check_ok accepted
  obtain ⟨t', done, grafted, length', grows, inside'⟩ := graft_spec (length.trans count) t [] inside (by simp) steps
  have notEmpty : done ≠ [] := by
    rintro rfl
    exact someSteps (List.length_eq_zero_iff.mp (by simpa using length'.symm))
  have last : done.getLast? = some (done.getLast notEmpty) := List.getLast?_eq_some_getLast notEmpty
  have applied : t.apply n args = .ok (t', done.getLast notEmpty) := by
    simp only [apply, op, grafted, ok_bind, last]
    rfl
  refine ⟨_, _, applied, grows, inside' _ (List.getLast_mem notEmpty), fun computed => ?_,
    fun faithful regs results read => ?_⟩
  · refine graft_last grafted someSteps (fun j isLoad => computed ?_) last
    rw [op, Op.endsInLoad, Expr.endsInLoad, isLoad]
  · obtain ⟨zs, source, result⟩ := faithful.fused e op
    have operands : ∀ (j i : Nat), args[j]? = some i → ∃ y, n.inputs[j]?.map x = some y ∧ regs[i]? = some y := by
      intro j i atJ
      obtain ⟨inArgs, rfl⟩ := List.getElem?_eq_some_iff.mp atJ
      have inInputs : j < n.inputs.length := length ▸ inArgs
      exact ⟨x n.inputs[j], by rw [List.getElem?_eq_getElem inInputs, Option.map_some], read.get inInputs inArgs⟩
    obtain ⟨regs', results', longer, after⟩ := graft_computes grafted results operands .nil source
    refine ⟨regs', results', longer, ?_⟩
    have lengths := after.length_eq
    rw [List.getLast?_eq_getElem?, ← lengths] at result
    obtain ⟨inZs, isLast⟩ := List.getElem?_eq_some_iff.mp result
    rw [← isLast, List.getLast_eq_getElem]
    exact after.get (by omega) inZs

variable (math x) in
/-- An operation is added on the steps of its operands. -/
theorem apply_spec (fusable : n.op.isFusable) (accepted : n.op.accepts k = .ok ()) (count : n.inputs.length = n.op.arity)
    (length : args.length = n.inputs.length) (inside : ∀ i ∈ args, i < t.steps.length) :
    ∃ t' i, t.apply n args = .ok (t', i) ∧ t.Applies t' k math x n args i := by
  rcases Op.isFusable_cases fusable with ⟨f, op⟩ | ⟨f, op⟩ | ⟨e, op⟩
  · rw [op] at count accepted
    exact apply_unary op accepted count length inside
  · rw [op] at count
    exact apply_binary op count length inside
  · rw [op] at count accepted
    exact apply_fused op accepted count length inside

variable (math x) in
/-- A cluster is expanded into steps that load what it loads and compute its result, which is computed last unless
it is an expression that ends in a load. -/
theorem expand_spec (sound : g.Sound d) (absorbing : Absorbing g absorbed (·.isFusable)) {depth : Nat} {n : Node}
    (at_ : g.nodes[n.id]? = some n) (fusable : n.op.isFusable) (deep : n.id < depth) {rank : Nat}
    (typed : Typed g n.output k rank) (t : Tree) :
    ∃ t' i, expand g absorbed depth n t = .ok (t', i) ∧ (¬ n.op.endsInLoad → t'.steps.length = i + 1) ∧
      t.Adds t' k math x (∀ m, Cluster g absorbed n m → Faithful math x m) (Loads g absorbed n) i
        n.output := by
  induction depth generalizing n t rank with
  | zero => exact absurd deep (Nat.not_lt_zero _)
  | succ depth ih =>
    obtain ⟨operandTypes, -, accepted⟩ := operands_typed sound at_ fusable typed
    have inner : ∀ v ∈ n.inputs, ∀ t : Tree, v ∈ absorbed → ∃ m, g.producer? v = some m ∧ m.op.isFusable ∧
        ∃ t' i, expand g absorbed depth m t = .ok (t', i) ∧ t.Adds t' k math x
          (∀ m, Cluster g absorbed n m → Faithful math x m) (Loads g absorbed m) i v := by
      intro v reads t inside
      obtain ⟨m, produced, fusableM⟩ := absorbing v inside
      obtain ⟨atM, output⟩ := sound.of_producer? produced
      obtain ⟨r, typedV, -⟩ := operandTypes v reads
      have earlier := sound.producer_lt at_ reads produced
      obtain ⟨t', i, ran, -, adds⟩ := ih atM fusableM (Nat.lt_of_lt_of_le earlier (Nat.le_of_lt_succ deep))
        (output ▸ typedV) t
      refine ⟨m, produced, fusableM, t', i, ran, adds.grows, adds.inRange, fun holds => ?_⟩
      rw [← output]
      exact adds.computes fun k' cluster => holds k' (.inner reads inside produced cluster)
    obtain ⟨t₁, args, ran, grows, inside, length, computes⟩ :=
      operands_spec (fun v reads t => operand_spec t (inner v reads t)) t []
    obtain ⟨t', i, applied, applies⟩ := apply_spec math x fusable accepted (inputs_length sound at_) length inside
    refine ⟨t', i, ?_, applies.last, (grows.trans applies.grows).congr fun u => ?_, applies.inRange,
      fun holds regs results => ?_⟩
    · rw [expand_succ, ran, ok_bind, List.nil_append]
      exact applied
    · rw [loads_iff absorbing, or_false]
    · obtain ⟨regs₁, results₁, longer, read⟩ := computes holds regs results
      obtain ⟨regs₂, results₂, longer', here⟩ := applies.computes (holds n (.self n)) regs₁ results₁ read
      exact ⟨regs₂, results₂, longer.trans longer', here⟩

end Expand

end Tree

end Fusion

end TensorGraph
