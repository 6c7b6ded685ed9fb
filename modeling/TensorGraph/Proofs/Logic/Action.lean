import TensorGraph.Action

/-! What an action on a state guarantees. An action that fails keeps what it did before, so a claim
about it says what holds of the state it leaves in both cases. -/
namespace TensorGraph

namespace Action

variable {σ τ α β : Type}

/-- The action ends with `post`, or fails and leaves an error and a state with `fails`. -/
def Meets (act : Action σ α) (s : σ) (fails : Error → σ → Prop) (post : α → σ → Prop) : Prop :=
  match act.start s with
  | (.ok a, next) => post a next
  | (.error e, next) => fails e next

variable {s : σ} {fails : Error → σ → Prop}

theorem Meets.mono {act : Action σ α} {fails' : Error → σ → Prop} {post post' : α → σ → Prop}
    (met : act.Meets s fails post) (failing : ∀ e next, fails e next → fails' e next)
    (ending : ∀ a next, post a next → post' a next) : act.Meets s fails' post' := by
  unfold Meets at met ⊢
  split <;> simp_all

/-- The claim with another account of the success. -/
theorem Meets.post {act : Action σ α} {post post' : α → σ → Prop}
    (met : act.Meets s fails post) (ending : ∀ a next, post a next → post' a next) :
    act.Meets s fails post' :=
  met.mono (fun _ _ held => held) ending

theorem Meets.of_ok {act : Action σ α} {post : α → σ → Prop} {a : α} {next : σ}
    (met : act.Meets s fails post) (ran : act.start s = (.ok a, next)) : post a next := by
  simpa only [Meets, ran] using met

theorem Meets.of_error {act : Action σ α} {post : α → σ → Prop} {e : Error} {next : σ}
    (met : act.Meets s fails post) (ran : act.start s = (.error e, next)) : fails e next := by
  simpa only [Meets, ran] using met

/-- What an action does, as a claim about it. -/
theorem meets_start (act : Action σ α) (s : σ) :
    act.Meets s (fun e next => act.start s = (.error e, next)) fun a next => act.start s = (.ok a, next) := by
  unfold Meets
  split <;> assumption

/-- What is so however an action ends. -/
theorem Meets.always {act : Action σ α} {always : σ → Prop} {result : Except Error α} {next : σ}
    (met : act.Meets s (fun _ => always) fun _ => always) (ran : act.start s = (result, next)) :
    always next := by
  cases result with
  | error e => exact met.of_error ran
  | ok a => exact met.of_ok ran

@[simp] theorem meets_pure (a : α) (post : α → σ → Prop) :
    (pure a : Action σ α).Meets s fails post ↔ post a s := Iff.rfl

theorem start_bind (act : Action σ α) (next : α → Action σ β) :
    (act >>= next).start s =
      match act.start s with
      | (.ok a, s') => (next a).start s'
      | (.error e, s') => (.error e, s') := by
  simp only [start, ExceptT.run_bind]
  simp only [bind, StateT.bind]
  generalize ExceptT.run act s = result
  obtain ⟨r, s'⟩ := result
  cases r <;> rfl

@[simp] theorem meets_bind (act : Action σ α) (next : α → Action σ β) (post : β → σ → Prop) :
    (act >>= next).Meets s fails post ↔
      act.Meets s fails fun a s' => (next a).Meets s' fails post := by
  simp only [Meets, start_bind]
  generalize act.start s = result
  obtain ⟨r, s'⟩ := result
  cases r <;> exact Iff.rfl

@[simp] theorem meets_get (post : σ → σ → Prop) :
    (get : Action σ σ).Meets s fails post ↔ post s s := Iff.rfl

@[simp] theorem meets_set (next : σ) (post : PUnit → σ → Prop) :
    (set next : Action σ PUnit).Meets s fails post ↔ post ⟨⟩ next := Iff.rfl

@[simp] theorem meets_modify (f : σ → σ) (post : PUnit → σ → Prop) :
    (modify f : Action σ PUnit).Meets s fails post ↔ post ⟨⟩ (f s) := Iff.rfl

@[simp] theorem meets_throw (e : Error) (post : α → σ → Prop) :
    (throw e : Action σ α).Meets s fails post ↔ fails e s := Iff.rfl

/-- A computation without state, run as an action. -/
theorem meets_lift (x : Except Error α) (post : α → σ → Prop) :
    (liftM x : Action σ α).Meets s fails post ↔
      match x with
      | .ok a => post a s
      | .error e => fails e s := by
  cases x <;> exact Iff.rfl

theorem meets_onPart (get : σ → τ) (set : σ → τ → σ) (act : Action τ α) (post : α → σ → Prop) :
    (act.onPart get set).Meets s fails post ↔
      act.Meets (get s) (fun e t => fails e (set s t)) fun a t => post a (set s t) := by
  have opened : (act.onPart get set).start s =
      ((act.start (get s)).1, set s (act.start (get s)).2) := rfl
  simp only [Meets, opened]
  generalize act.start (get s) = result
  obtain ⟨r, t⟩ := result
  cases r <;> exact Iff.rfl

/-- An attempt does not fail: it hands on how the action went. -/
theorem meets_attempt (act : Action σ α) (post : Except Error α → σ → Prop) :
    act.attempt.Meets s fails post ↔
      act.Meets s (fun e next => post (.error e) next) fun a next => post (.ok a) next := by
  have opened : act.attempt.start s = (.ok (act.start s).1, (act.start s).2) := rfl
  simp only [Meets, opened]
  generalize act.start s = result
  obtain ⟨r, t⟩ := result
  cases r <;> exact Iff.rfl

theorem forM_concat (f : α → Action σ PUnit) (xs : List α) (x : α) :
    (xs ++ [x]).forM f = xs.forM f >>= fun _ => f x := by
  rw [List.forM_eq_forM, List.forM_append, List.forM_cons, List.forM_nil]
  simp

/-- An action over a list keeps an invariant on the items that are done and those to come. -/
theorem meets_forM {f : α → Action σ PUnit} {post : PUnit → σ → Prop}
    (inv : List α → List α → σ → Prop) (xs : List α) (first : inv [] xs s)
    (each : ∀ before x after s, xs = before ++ x :: after → inv before (x :: after) s →
      (f x).Meets s fails fun _ next => inv (before ++ [x]) after next)
    (finish : ∀ next, inv xs [] next → post ⟨⟩ next) : (xs.forM f).Meets s fails post := by
  have run : ∀ after before s, xs = before ++ after → inv before after s →
      (after.forM f).Meets s fails post := by
    intro after
    induction after with
    | nil =>
      intro before s whole held
      rw [List.append_nil] at whole
      exact finish s (whole ▸ held)
    | cons x after ih =>
      intro before s whole held
      rw [List.forM_eq_forM, List.forM_cons, meets_bind]
      refine (each before x after s whole held).post fun _ next kept => ?_
      exact ih (before ++ [x]) next (by simp [whole]) kept
  exact run xs [] s rfl first

/-- An action over a list keeps an invariant on the items that are done and their results. -/
theorem meets_mapM {f : α → Action σ β} {post : List β → σ → Prop}
    (inv : List α → List β → σ → Prop) (xs : List α) (first : inv [] [] s)
    (each : ∀ before x after ys s, xs = before ++ x :: after → inv before ys s →
      (f x).Meets s fails fun y next => inv (before ++ [x]) (ys ++ [y]) next)
    (finish : ∀ ys next, inv xs ys next → post ys next) : (xs.mapM f).Meets s fails post := by
  have run : ∀ after before ys s, xs = before ++ after → inv before ys s →
      (after.mapM f).Meets s fails fun rest next => inv xs (ys ++ rest) next := by
    intro after
    induction after with
    | nil =>
      intro before ys s whole held
      rw [List.append_nil] at whole
      simpa [whole] using held
    | cons x after ih =>
      intro before ys s whole held
      rw [List.mapM_cons, meets_bind]
      refine (each before x after ys s whole held).post fun y next kept => ?_
      rw [meets_bind]
      refine (ih (before ++ [x]) (ys ++ [y]) next (by simp [whole]) kept).post ?_
      intro rest final held
      simpa using held
  exact (run xs [] [] s rfl first).post fun ys next held => finish ys next (by simpa using held)

end Action

end TensorGraph
