import Mathlib.Data.List.Forall2
import TensorGraph.Error

/-! Computations that may fail, opened step by step: what a success of the whole says about its
parts. -/
namespace TensorGraph

namespace Checked

variable {ε α β : Type}

@[simp] theorem ok_bind (a : α) (f : α → Except ε β) : (Except.ok a >>= f) = f a := rfl

@[simp] theorem error_bind (e : ε) (f : α → Except ε β) :
    (Except.error e >>= f) = Except.error e := rfl

@[simp] theorem pure_eq (a : α) : (pure a : Except ε α) = .ok a := rfl

@[simp] theorem throw_eq (e : ε) : (throw e : Except ε α) = .error e := rfl

theorem exists_of_isOk {r : Except ε α} (isOk : r.isOk) : ∃ a, r = .ok a := by
  cases r with
  | ok a => exact ⟨a, rfl⟩
  | error e => cases isOk

/-- What a computation failed with. -/
def failure? : Except ε α → Option ε
  | .ok _ => none
  | .error e => some e

theorem eq_error_of_failure {r : Except ε α} {e : ε} (failed : failure? r = some e) : r = .error e := by
  cases r with
  | ok a => cases failed
  | error e' => rw [Option.some.inj failed]

theorem bind_eq_ok {x : Except ε α} {f : α → Except ε β} {b : β} :
    (x >>= f) = .ok b ↔ ∃ a, x = .ok a ∧ f a = .ok b := by
  cases x with
  | error e => simp
  | ok a => simp

theorem bind_eq_error {x : Except ε α} {f : α → Except ε β} {e : ε} :
    (x >>= f) = .error e ↔ x = .error e ∨ ∃ a, x = .ok a ∧ f a = .error e := by
  cases x with
  | error e => simp
  | ok a => simp

theorem map_eq_ok {x : Except ε α} {f : α → β} {b : β} :
    (f <$> x) = .ok b ↔ ∃ a, x = .ok a ∧ f a = b := by
  cases x with
  | error e => simp [Functor.map, Except.map]
  | ok a => simp [Functor.map, Except.map]

/-- A list of computations succeeds exactly when each of them does. -/
theorem mapM_eq_ok {f : α → Except ε β} {xs : List α} {ys : List β} :
    xs.mapM f = .ok ys ↔ List.Forall₂ (fun x y => f x = .ok y) xs ys := by
  induction xs generalizing ys with
  | nil =>
    rw [List.mapM_nil, pure_eq, Except.ok.injEq, List.forall₂_nil_left_iff, eq_comm]
  | cons x xs ih =>
    rw [List.mapM_cons, bind_eq_ok, List.forall₂_cons_left_iff]
    constructor
    · rintro ⟨y, head, rest⟩
      obtain ⟨ys, tail, whole⟩ := bind_eq_ok.mp rest
      cases whole
      exact ⟨y, ys, head, ih.mp tail, rfl⟩
    · rintro ⟨y, ys, head, tail, rfl⟩
      exact ⟨y, head, bind_eq_ok.mpr ⟨ys, ih.mpr tail, rfl⟩⟩

theorem mapM_bind {γ : Type} {f : α → Except ε β} {xs : List α} (ys : List β)
    (next : List β → Except ε γ) (each : List.Forall₂ (fun x y => f x = .ok y) xs ys) :
    (xs.mapM f >>= next) = next ys := by
  rw [mapM_eq_ok.mpr each, ok_bind]

theorem mapM_eq_some {f : α → Option β} {xs : List α} {ys : List β} :
    xs.mapM f = some ys ↔ List.Forall₂ (fun x y => f x = some y) xs ys := by
  induction xs generalizing ys with
  | nil =>
    rw [List.mapM_nil, List.forall₂_nil_left_iff, eq_comm]
    exact Option.some_inj
  | cons x xs ih =>
    rw [List.mapM_cons, List.forall₂_cons_left_iff]
    simp only [bind, Option.bind_eq_some_iff, ih, pure, Option.some.injEq]
    constructor
    · rintro ⟨y, head, ys, tail, rfl⟩
      exact ⟨y, ys, head, tail, rfl⟩
    · rintro ⟨y, ys, head, tail, rfl⟩
      exact ⟨y, head, ys, tail, rfl⟩

theorem map_of_mapM {f : α → Option β} {xs : List α} {ys : List β} (ran : xs.mapM f = some ys) :
    xs.map f = ys.map some := by
  have each := mapM_eq_some.mp ran
  clear ran
  induction each with
  | nil => rfl
  | cons here _ ih => rw [List.map_cons, List.map_cons, here, ih]

theorem mapM_congr {m : Type → Type} [Monad m] [LawfulMonad m] {f g : α → m β} {xs : List α}
    (same : ∀ x ∈ xs, f x = g x) :
    xs.mapM f = xs.mapM g := by
  induction xs with
  | nil => rfl
  | cons x xs ih =>
    rw [List.mapM_cons, List.mapM_cons, same x (by simp),
      ih fun y member => same y (List.mem_cons_of_mem _ member)]

theorem exists_mapM {f : α → Option β} {xs : List α} (each : ∀ x ∈ xs, ∃ y, f x = some y) :
    ∃ ys, xs.mapM f = some ys := by
  induction xs with
  | nil => exact ⟨[], rfl⟩
  | cons x xs ih =>
    obtain ⟨ys, rest⟩ := ih fun z member => each z (List.mem_cons_of_mem _ member)
    obtain ⟨y, here⟩ := each x (by simp)
    exact ⟨y :: ys, by simp [List.mapM_cons, here, rest]⟩

theorem exists_mapM_ok {f : α → Except ε β} {xs : List α} (each : ∀ x ∈ xs, ∃ y, f x = .ok y) :
    ∃ ys, xs.mapM f = .ok ys := by
  induction xs with
  | nil => exact ⟨[], rfl⟩
  | cons x xs ih =>
    obtain ⟨ys, rest⟩ := ih fun z member => each z (List.mem_cons_of_mem _ member)
    obtain ⟨y, here⟩ := each x (by simp)
    exact ⟨y :: ys, by rw [List.mapM_cons, here, ok_bind, rest]; rfl⟩

/-- A list of computations fails with the error of one of them. -/
theorem mapM_eq_error {f : α → Except ε β} {xs : List α} {e : ε} (failed : xs.mapM f = .error e) :
    ∃ x ∈ xs, f x = .error e := by
  induction xs with
  | nil => cases failed
  | cons x xs ih =>
    rw [List.mapM_cons] at failed
    rcases bind_eq_error.mp failed with here | ⟨y, -, failed⟩
    · exact ⟨x, by simp, here⟩
    rcases bind_eq_error.mp failed with later | ⟨ys, -, failed⟩
    · obtain ⟨z, member, there⟩ := ih later
      exact ⟨z, List.mem_cons_of_mem _ member, there⟩
    · cases failed

/-- A list of checks passes exactly when each of them does. -/
theorem filterAuxM_of_ok {f : α → Except ε Bool} {p : α → Bool} {xs acc : List α} (each : ∀ x ∈ xs, f x = .ok (p x)) :
    List.filterAuxM f xs acc = .ok ((xs.filter p).reverse ++ acc) := by
  induction xs generalizing acc with
  | nil => rfl
  | cons x xs ih =>
    have rest := fun y member => each y (List.mem_cons_of_mem x member)
    simp only [List.filterAuxM, each x List.mem_cons_self, ok_bind, ih rest, List.filter_cons]
    cases p x with
    | true => simp
    | false => simp

theorem filterM_of_ok {f : α → Except ε Bool} {p : α → Bool} {xs : List α} (each : ∀ x ∈ xs, f x = .ok (p x)) :
    xs.filterM f = .ok (xs.filter p) := by
  simp [List.filterM, filterAuxM_of_ok each]

theorem forM_eq_ok {f : α → Except ε Unit} {xs : List α} :
    xs.forM f = .ok () ↔ ∀ x ∈ xs, f x = .ok () := by
  induction xs with
  | nil => simp [List.forM_eq_forM]
  | cons x xs ih =>
    rw [List.forM_eq_forM] at ih
    rw [List.forM_eq_forM, List.forM_cons, bind_eq_ok, List.forall_mem_cons]
    constructor
    · rintro ⟨⟨⟩, head, tail⟩
      exact ⟨head, ih.mp tail⟩
    · rintro ⟨head, tail⟩
      exact ⟨⟨⟩, head, ih.mpr tail⟩

/-- Every item of the first of two related lists has a partner in the second one. -/
theorem partner {R : α → β → Prop} {xs : List α} {ys : List β} (each : List.Forall₂ R xs ys)
    {x : α} (member : x ∈ xs) : ∃ y ∈ ys, R x y := by
  induction each with
  | nil => cases member
  | @cons x' y' xs ys here _ ih =>
    rcases List.mem_cons.mp member with rfl | later
    · exact ⟨y', by simp, here⟩
    · obtain ⟨y, there, related⟩ := ih later
      exact ⟨y, List.mem_cons_of_mem _ there, related⟩

theorem partner_of {R : α → β → Prop} {xs : List α} {ys : List β} (each : List.Forall₂ R xs ys)
    {y : β} (member : y ∈ ys) : ∃ x ∈ xs, R x y := partner each.flip member

/-- Items that all have partners are related to a list of them. -/
theorem exists_forall₂ {R : α → β → Prop} {ys : List β} (each : ∀ y ∈ ys, ∃ x, R x y) :
    ∃ xs, List.Forall₂ R xs ys := by
  induction ys with
  | nil => exact ⟨[], .nil⟩
  | cons y ys ih =>
    obtain ⟨xs, rest⟩ := ih fun z member => each z (List.mem_cons_of_mem _ member)
    obtain ⟨x, here⟩ := each y (by simp)
    exact ⟨x :: xs, .cons here rest⟩

/-- Two related lists split at the same place. -/
theorem forall₂_split {R : α → β → Prop} {xs : List α} {before after : List β} {y : β}
    (each : List.Forall₂ R xs (before ++ y :: after)) : ∃ front x back, xs = front ++ x :: back ∧
      List.Forall₂ R front before ∧ R x y ∧ List.Forall₂ R back after := by
  induction before generalizing xs with
  | nil =>
    obtain ⟨x, back, here, rest, rfl⟩ := List.forall₂_cons_right_iff.mp each
    exact ⟨[], x, back, rfl, .nil, here, rest⟩
  | cons z before ih =>
    obtain ⟨w, xs', here, rest, rfl⟩ := List.forall₂_cons_right_iff.mp each
    obtain ⟨front, x, back, rfl, first, middle, last⟩ := ih rest
    exact ⟨w :: front, x, back, rfl, .cons here first, middle, last⟩

/-- What is related to two lists in a row is two lists in a row. -/
theorem forall₂_cut {R : α → β → Prop} {xs : List α} {before after : List β}
    (each : List.Forall₂ R xs (before ++ after)) :
    ∃ front back, xs = front ++ back ∧ List.Forall₂ R front before ∧ List.Forall₂ R back after :=
  ⟨xs.take before.length, xs.drop before.length, (List.take_append_drop _ _).symm,
    List.forall₂_take_append xs before after each, List.forall₂_drop_append xs before after each⟩

/-- What relates the items of a list to those of a second one, and these to those of a third one. -/
theorem forall₂_through {γ : Type} {R : α → β → Prop} {S : β → γ → Prop} {T : α → γ → Prop} {xs : List α}
    {ys : List β} {zs : List γ} (first : List.Forall₂ R xs ys) (second : List.Forall₂ S ys zs)
    (through : ∀ x y z, R x y → S y z → T x z) : List.Forall₂ T xs zs := by
  induction first generalizing zs with
  | nil =>
    cases second
    exact .nil
  | cons here _ ih =>
    cases second with
    | cons next rest => exact .cons (through _ _ _ here next) (ih rest)

/-- Two related lists have related items at every place. -/
theorem forall₂_getElem? {R : α → β → Prop} {xs : List α} {ys : List β} (each : List.Forall₂ R xs ys)
    {i : Nat} {x : α} (at_ : xs[i]? = some x) : ∃ y, ys[i]? = some y ∧ R x y := by
  induction each generalizing i with
  | nil => simp at at_
  | cons here _ ih =>
    cases i with
    | zero =>
      obtain rfl := Option.some.inj at_
      exact ⟨_, rfl, here⟩
    | succ i => exact ih at_

/-- Both computations fail, or both succeed with related results. -/
def Agree (R : α → β → Prop) (x : Except ε α) (y : Except ε β) : Prop :=
  match x, y with
  | .ok a, .ok b => R a b
  | .error _, .error _ => True
  | _, _ => False

theorem Agree.refl {R : α → α → Prop} (each : ∀ a, R a a) (x : Except ε α) : Agree R x x := by
  cases x with
  | ok a => exact each a
  | error e => trivial

theorem Agree.bind {γ δ : Type} {R : α → β → Prop} {S : γ → δ → Prop} {x : Except ε α} {y : Except ε β}
    {f : α → Except ε γ} {g : β → Except ε δ} (first : Agree R x y) (next : ∀ a b, R a b → Agree S (f a) (g b)) :
    Agree S (x >>= f) (y >>= g) := by
  cases x with
  | ok a =>
    cases y with
    | ok b => exact next a b first
    | error e => exact first.elim
  | error e =>
    cases y with
    | ok b => exact first.elim
    | error e' => trivial

theorem Agree.map {γ δ : Type} {R : α → β → Prop} {S : γ → δ → Prop} {x : Except ε α} {y : Except ε β} {f : α → γ}
    {g : β → δ} (agree : Agree R x y) (each : ∀ a b, R a b → S (f a) (g b)) : Agree S (f <$> x) (g <$> y) := by
  rw [map_eq_pure_bind, map_eq_pure_bind]
  exact agree.bind each

theorem Agree.isOk {R : α → β → Prop} {x : Except ε α} {y : Except ε β} (agree : Agree R x y) : x.isOk = y.isOk := by
  cases x <;> cases y <;> first | rfl | exact agree.elim

theorem Agree.mono {R S : α → β → Prop} {x : Except ε α} {y : Except ε β} (agree : Agree R x y)
    (weaker : ∀ a b, R a b → S a b) : Agree S x y := by
  cases x <;> cases y <;> first | exact weaker _ _ agree | exact agree

/-- What is known of the results on the other side. -/
theorem Agree.and {R : α → β → Prop} {S : β → Prop} {x : Except ε α} {y : Except ε β} (agree : Agree R x y)
    (each : ∀ b, y = .ok b → S b) : Agree (fun a b => R a b ∧ S b) x y := by
  cases x <;> cases y <;> first | exact ⟨agree, each _ rfl⟩ | exact agree

/-- A success has a partner on the other side. -/
theorem Agree.of_ok {R : α → β → Prop} {x : Except ε α} {y : Except ε β} (agree : Agree R x y) {a : α}
    (ran : x = .ok a) : ∃ b, y = .ok b ∧ R a b := by
  subst ran
  cases y with
  | ok b => exact ⟨b, rfl, agree⟩
  | error e => exact agree.elim

/-- Two computations in step: both fail with one error, or their results are related. -/
inductive InStep (R : α → β → Prop) : Except ε α → Except ε β → Prop where
  | ok {a : α} {b : β} (related : R a b) : InStep R (.ok a) (.ok b)
  | error (e : ε) : InStep R (.error e) (.error e)

namespace InStep

variable {R : α → β → Prop} {x : Except ε α} {y : Except ε β}

theorem refl {R : α → α → Prop} (each : ∀ a, R a a) (x : Except ε α) : InStep R x x := by
  cases x with
  | ok a => exact .ok (each a)
  | error e => exact .error e

theorem bind {γ δ : Type} {S : γ → δ → Prop} {f : α → Except ε γ} {g : β → Except ε δ} (first : InStep R x y)
    (next : ∀ a b, R a b → InStep S (f a) (g b)) : InStep S (x >>= f) (y >>= g) := by
  cases first with
  | ok related => exact next _ _ related
  | error e => exact .error e

theorem mono {S : α → β → Prop} (inStep : InStep R x y) (weaker : ∀ a b, R a b → S a b) : InStep S x y := by
  cases inStep with
  | ok related => exact .ok (weaker _ _ related)
  | error e => exact .error e

theorem symm (inStep : InStep R x y) : InStep (fun b a => R a b) y x := by
  cases inStep with
  | ok related => exact .ok related
  | error e => exact .error e

/-- Where the second has a result, so has the first. -/
theorem of_ok (inStep : InStep R x y) {b : β} (ran : y = .ok b) : ∃ a, x = .ok a ∧ R a b := by
  subst ran
  cases inStep with
  | ok related => exact ⟨_, rfl, related⟩

/-- Computations in step are not told apart by what their results have in common. -/
theorem map_eq {γ : Type} {f : α → γ} {g : β → γ} (inStep : InStep R x y) (each : ∀ a b, R a b → f a = g b) :
    f <$> x = g <$> y := by
  cases inStep with
  | ok related => exact congrArg Except.ok (each _ _ related)
  | error e => rfl

end InStep

end Checked

end TensorGraph
