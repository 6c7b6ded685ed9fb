import TensorGraph.Proofs.Logic.Action

/-! What actions keep. An action keeps an invariant when it leaves it behind whether it fails or not; what is kept by
its parts is kept by the whole. -/
namespace TensorGraph

namespace Action

variable {σ τ α β : Type} {inv : σ → Prop} {inv' : τ → Prop} {fails : Error → Prop} {post : α → Prop}

/-- From every state with the invariant, the action leads to one with the invariant. Its result has `post`, or its
error has `fails`. -/
def Keeps (act : Action σ α) (inv : σ → Prop) (fails : Error → Prop) (post : α → Prop) : Prop :=
  ∀ s, inv s → act.Meets s (fun e s' => fails e ∧ inv s') fun a s' => post a ∧ inv s'

theorem Keeps.mono {act : Action σ α} {post' : α → Prop} (keeps : act.Keeps inv fails post)
    (weaker : ∀ a, post a → post' a) : act.Keeps inv fails post' := fun s held =>
  (keeps s held).post fun a _ ⟨here, held'⟩ => ⟨weaker a here, held'⟩

/-- The action with nothing said of its result. -/
theorem Keeps.plain {act : Action σ α} (keeps : act.Keeps inv fails post) : act.Keeps inv fails fun _ => True :=
  keeps.mono fun _ _ => trivial

theorem keeps_pure {a : α} (held : post a) : (pure a : Action σ α).Keeps inv fails post :=
  fun _ kept => ⟨held, kept⟩

theorem Keeps.bind {act : Action σ α} {next : α → Action σ β} {post' : β → Prop}
    (first : act.Keeps inv fails post) (rest : ∀ a, post a → (next a).Keeps inv fails post') :
    (act >>= next).Keeps inv fails post' := fun s held => by
  rw [meets_bind]
  exact (first s held).post fun a s' ⟨here, held'⟩ => rest a here s' held'

/-- One action and then another, whatever the first one gives. -/
theorem Keeps.andThen {act : Action σ α} {next : α → Action σ β} {post' : β → Prop}
    (first : act.Keeps inv fails fun _ => True) (rest : ∀ a, (next a).Keeps inv fails post') :
    (act >>= next).Keeps inv fails post' := first.bind fun a _ => rest a

theorem keeps_get : (get : Action σ σ).Keeps inv fails inv := fun _ held => ⟨held, held⟩

theorem keeps_set {s : σ} (held : inv s) : (set s : Action σ PUnit).Keeps inv fails fun _ => True :=
  fun _ _ => ⟨trivial, held⟩

theorem keeps_modify {f : σ → σ} (stays : ∀ s, inv s → inv (f s)) :
    (modify f : Action σ PUnit).Keeps inv fails fun _ => True := fun s held => ⟨trivial, stays s held⟩

theorem keeps_throw {e : Error} (failed : fails e) : (throw e : Action σ α).Keeps inv fails post :=
  fun _ held => ⟨failed, held⟩

/-- A computation without state keeps every invariant. -/
theorem keeps_lift {x : Except Error α} (failing : ∀ e, x = .error e → fails e) (ending : ∀ a, x = .ok a → post a) :
    (liftM x : Action σ α).Keeps inv fails post := fun s held => by
  rw [meets_lift]
  cases x with
  | ok a => exact ⟨ending a rfl, held⟩
  | error e => exact ⟨failing e rfl, held⟩

theorem keeps_onPart {get : σ → τ} {set : σ → τ → σ} {act : Action τ α} (enters : ∀ s, inv s → inv' (get s))
    (leaves : ∀ s t, inv s → inv' t → inv (set s t)) (keeps : act.Keeps inv' fails post) :
    (act.onPart get set).Keeps inv fails post := fun s held => by
  rw [meets_onPart]
  exact (keeps (get s) (enters s held)).mono (fun _ t ⟨failed, here⟩ => ⟨failed, leaves s t held here⟩)
    fun _ t ⟨ended, here⟩ => ⟨ended, leaves s t held here⟩

/-- An attempt hands on the error of the action, if there is one. -/
theorem keeps_attempt {act : Action σ α} {fails' : Error → Prop} (keeps : act.Keeps inv fails post) :
    act.attempt.Keeps inv fails' fun result => (∀ a, result = .ok a → post a) ∧ ∀ e, result = .error e → fails e :=
  fun s held => by
  rw [meets_attempt]
  refine (keeps s held).mono (fun e _ ⟨failed, here⟩ => ⟨⟨nofun, ?_⟩, here⟩)
    fun a _ ⟨ended, here⟩ => ⟨⟨?_, nofun⟩, here⟩
  · rintro _ ⟨⟩
    exact failed
  · rintro _ ⟨⟩
    exact ended

theorem keeps_forM {f : α → Action σ PUnit} {xs : List α} (each : ∀ x ∈ xs, (f x).Keeps inv fails fun _ => True) :
    (xs.forM f).Keeps inv fails fun _ => True := fun s held =>
  meets_forM (fun _ _ => inv) xs held
    (fun before x after s' split held' => (each x (by simp [split]) s' held').post fun _ _ ⟨_, kept⟩ => kept)
    fun _ kept => ⟨trivial, kept⟩

theorem keeps_mapM {f : α → Action σ β} {xs : List α} (post : β → Prop)
    (each : ∀ x ∈ xs, (f x).Keeps inv fails post) : (xs.mapM f).Keeps inv fails fun ys => ∀ y ∈ ys, post y :=
  fun s held =>
  meets_mapM (fun _ ys s' => (∀ y ∈ ys, post y) ∧ inv s') xs ⟨by simp, held⟩
    (fun before x after ys s' split ⟨done, held'⟩ => (each x (by simp [split]) s' held').post
      fun y _ ⟨here, kept⟩ => ⟨List.forall_mem_append.mpr ⟨done, by simpa using here⟩, kept⟩)
    fun _ _ kept => kept

/-- A choice between two actions. -/
theorem keeps_ite {c : Prop} [Decidable c] {yes no : Action σ α} (first : c → yes.Keeps inv fails post)
    (second : ¬ c → no.Keeps inv fails post) : (if c then yes else no).Keeps inv fails post := by
  by_cases held : c
  · rw [if_pos held]
    exact first held
  · rw [if_neg held]
    exact second held

end Action

end TensorGraph
