import TensorGraph.Pass.Rebuild

/-! What a step of a rebuild guarantees. A claim about a step names the state it starts from, the
errors with which it may fail, and what holds of its result and of the state it leaves. -/
namespace TensorGraph

namespace Rebuilding

variable {α β γ : Type}

/-- The step fails only as `fails` allows, and otherwise ends with `post`. -/
def Meets (act : Rebuilding α) (r : Rebuild) (fails : Error → Prop) (post : α → Rebuild → Prop) : Prop :=
  match act r with
  | .ok (a, next) => post a next
  | .error e => fails e

variable {fails : Error → Prop} {r : Rebuild}

theorem Meets.mono {act : Rebuilding α} {post post' : α → Rebuild → Prop}
    (met : act.Meets r fails post) (weaker : ∀ a next, post a next → post' a next) :
    act.Meets r fails post' := by
  unfold Meets at met ⊢
  split <;> simp_all

theorem Meets.weaken {act : Rebuilding α} {fails' : Error → Prop} {post : α → Rebuild → Prop}
    (met : act.Meets r fails post) (weaker : ∀ e, fails e → fails' e) : act.Meets r fails' post := by
  unfold Meets at met ⊢
  split <;> simp_all

theorem Meets.and {act : Rebuilding α} {fails' : Error → Prop} {post post' : α → Rebuild → Prop}
    (first : act.Meets r fails post) (second : act.Meets r fails' post') :
    act.Meets r fails fun a next => post a next ∧ post' a next := by
  unfold Meets at first second ⊢
  split <;> simp_all

theorem meets_trivial (act : Rebuilding α) : act.Meets r (fun _ => True) fun _ _ => True := by
  unfold Meets
  split <;> trivial

@[simp] theorem meets_pure (a : α) (post : α → Rebuild → Prop) :
    (pure a : Rebuilding α).Meets r fails post ↔ post a r := Iff.rfl

theorem bind_apply (act : Rebuilding α) (next : α → Rebuilding β) (r : Rebuild) :
    (act >>= next) r = (act r >>= fun result => next result.1 result.2 : Except Error (β × Rebuild)) := rfl

theorem get_bind (next : Rebuild → Rebuilding β) (r : Rebuild) : (get >>= next : Rebuilding β) r = next r r := rfl

theorem lift_bind (x : Except Error α) (next : α → Rebuilding β) (r : Rebuild) :
    (liftM x >>= next : Rebuilding β) r = x >>= fun a => next a r := by
  cases x <;> rfl

@[simp] theorem meets_bind (act : Rebuilding α) (next : α → Rebuilding β)
    (post : β → Rebuild → Prop) :
    (act >>= next).Meets r fails post ↔
      act.Meets r fails fun a r' => (next a).Meets r' fails post := by
  simp only [Meets, bind, StateT.bind, Except.bind]
  cases act r with
  | error e => exact Iff.rfl
  | ok result => exact Iff.rfl

@[simp] theorem meets_map (f : α → β) (act : Rebuilding α) (post : β → Rebuild → Prop) :
    (f <$> act).Meets r fails post ↔ act.Meets r fails fun a r' => post (f a) r' := by
  rw [map_eq_pure_bind, meets_bind]
  exact Iff.rfl

@[simp] theorem meets_get (post : Rebuild → Rebuild → Prop) :
    (get : Rebuilding Rebuild).Meets r fails post ↔ post r r := Iff.rfl

@[simp] theorem meets_set (next : Rebuild) (post : PUnit → Rebuild → Prop) :
    (set next : Rebuilding PUnit).Meets r fails post ↔ post ⟨⟩ next := Iff.rfl

@[simp] theorem meets_modify (f : Rebuild → Rebuild) (post : PUnit → Rebuild → Prop) :
    (modify f : Rebuilding PUnit).Meets r fails post ↔ post ⟨⟩ (f r) := Iff.rfl

@[simp] theorem meets_throw (e : Error) (post : α → Rebuild → Prop) :
    (throw e : Rebuilding α).Meets r fails post ↔ fails e := Iff.rfl

/-- A computation without state, run as a step. -/
theorem meets_lift (x : Except Error α) (post : α → Rebuild → Prop) :
    (liftM x : Rebuilding α).Meets r fails post ↔
      match x with
      | .ok a => post a r
      | .error e => fails e := by
  cases x <;> exact Iff.rfl

/-- A step over a list keeps an invariant on the items that are done. -/
theorem meets_forM {f : α → Rebuilding PUnit} {post : PUnit → Rebuild → Prop}
    (inv : List α → Rebuild → Prop) (xs : List α) (start : inv [] r)
    (each : ∀ before x after r, xs = before ++ x :: after → inv before r →
      (f x).Meets r fails fun _ next => inv (before ++ [x]) next)
    (finish : ∀ next, inv xs next → post ⟨⟩ next) : (xs.forM f).Meets r fails post := by
  have run : ∀ after before r, xs = before ++ after → inv before r →
      (after.forM f).Meets r fails post := by
    intro after
    induction after with
    | nil =>
      intro before r whole held
      rw [List.append_nil] at whole
      exact finish r (whole ▸ held)
    | cons x after ih =>
      intro before r whole held
      rw [List.forM_eq_forM, List.forM_cons, meets_bind]
      refine (each before x after r whole held).mono fun _ next kept => ?_
      exact ih (before ++ [x]) next (by simp [whole]) kept
  exact run xs [] r rfl start

/-- A step over a list keeps an invariant on the items that are done and their results. -/
theorem meets_mapM {f : α → Rebuilding β} {post : List β → Rebuild → Prop}
    (inv : List α → List β → Rebuild → Prop) (xs : List α) (start : inv [] [] r)
    (each : ∀ before x after ys r, xs = before ++ x :: after → inv before ys r →
      (f x).Meets r fails fun y next => inv (before ++ [x]) (ys ++ [y]) next)
    (finish : ∀ ys next, inv xs ys next → post ys next) : (xs.mapM f).Meets r fails post := by
  have run : ∀ after before ys r, xs = before ++ after → inv before ys r →
      (after.mapM f).Meets r fails fun rest next => inv xs (ys ++ rest) next := by
    intro after
    induction after with
    | nil =>
      intro before ys r whole held
      rw [List.append_nil] at whole
      simpa [whole] using held
    | cons x after ih =>
      intro before ys r whole held
      rw [List.mapM_cons, meets_bind]
      refine (each before x after ys r whole held).mono fun y next kept => ?_
      rw [meets_bind]
      refine (ih (before ++ [x]) (ys ++ [y]) next (by simp [whole]) kept).mono ?_
      intro rest final held
      simpa using held
  exact (run xs [] [] r rfl start).mono fun ys next held => finish ys next (by simpa using held)

end Rebuilding

/-- A rebuild with what it ends in: the graph, and which new variable stands for which old one. -/
def Program.rebuilding (p : Program) (step : Node → Rebuilding Unit) : Except Error (Program × Rebuild) :=
  (do
    discard (Rebuild.readAll p p.inputs)
    p.liveNodes.forM step
    Rebuild.finish p : Rebuilding Program).run (.start p)

theorem Program.rebuild_eq_rebuilding (p : Program) (step : Node → Rebuilding Unit) :
    p.rebuild step = Prod.fst <$> p.rebuilding step := rfl

end TensorGraph
