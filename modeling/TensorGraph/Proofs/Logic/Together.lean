import TensorGraph.Proofs.Logic.Checked
import TensorGraph.Proofs.Logic.Rebuilding

/-! Two rebuilds side by side that make the same graph, from variables that a partial map takes to each other. A claim
about a pair of steps says that both fail, or both end with the same result and are still side by side. -/
namespace TensorGraph

open Checked

/-- Two rebuilds have made the same graph and know the same, and variables that the map takes to each other have the
same images. -/
structure Rebuild.Alongside (image : VarId → Option VarId) (r r' : Rebuild) : Prop where
  graph : r.graph = r'.graph
  known : r.known = r'.known
  image : ∀ {v w : VarId}, image v = some w → r.image v = r'.image w

namespace Rebuilding

variable {α β : Type} {image : VarId → Option VarId} {r r' : Rebuild}

/-- Both steps fail, or both give the same result and leave rebuilds that are side by side. -/
def Together (image : VarId → Option VarId) (act act' : Rebuilding α) (r r' : Rebuild) : Prop :=
  Agree (fun a b => a.1 = b.1 ∧ a.2.Alongside image b.2) (act r) (act' r')

theorem together_pure (along : r.Alongside image r') (a : α) : Together image (pure a) (pure a) r r' := ⟨rfl, along⟩

theorem together_throw (e e' : Error) : Together image (throw e : Rebuilding α) (throw e') r r' := trivial

theorem together_of_error {act act' : Rebuilding α} {e e' : Error} (first : act r = .error e)
    (second : act' r' = .error e') : Together image act act' r r' := by
  unfold Together
  rw [first, second]
  trivial

theorem Together.bind {act act' : Rebuilding α} {f g : α → Rebuilding β} (first : Together image act act' r r')
    (next : ∀ a s s', s.Alongside image s' → Together image (f a) (g a) s s') :
    Together image (act >>= f) (act' >>= g) r r' := by
  unfold Together at first ⊢
  rw [bind_apply, bind_apply]
  refine first.bind ?_
  rintro ⟨a, s⟩ ⟨b, s'⟩ ⟨rfl, along⟩
  exact next a s s' along

theorem together_get_bind {f g : Rebuild → Rebuilding β} (next : Together image (f r) (g r') r r') :
    Together image (get >>= f) (get >>= g) r r' := next

/-- Computations without state that agree, run as steps. -/
theorem together_lift {x y : Except Error α} (along : r.Alongside image r') (agree : Agree Eq x y) :
    Together image (liftM x) (liftM y) r r' := by
  cases x <;> cases y <;> first | exact ⟨agree, along⟩ | exact agree

/-- Steps over lists whose items go together. -/
theorem together_mapM {γ δ : Type} {R : γ → δ → Prop} {f : γ → Rebuilding α} {g : δ → Rebuilding α} {xs : List γ}
    {ys : List δ} (pairs : List.Forall₂ R xs ys)
    (each : ∀ x y s s', x ∈ xs → R x y → s.Alongside image s' → Together image (f x) (g y) s s')
    (along : r.Alongside image r') : Together image (xs.mapM f) (ys.mapM g) r r' := by
  induction pairs generalizing r r' with
  | nil => exact together_pure along []
  | @cons x y xs ys pair _ ih =>
    rw [List.mapM_cons, List.mapM_cons]
    refine (each x y r r' (by simp) pair along).bind fun a s s' along => ?_
    refine (ih (fun x y s s' member => each x y s s' (List.mem_cons_of_mem _ member)) along).bind fun rest s s' along => ?_
    exact together_pure along (a :: rest)

theorem together_forM {γ δ : Type} {R : γ → δ → Prop} {f : γ → Rebuilding PUnit} {g : δ → Rebuilding PUnit}
    {xs : List γ} {ys : List δ} (pairs : List.Forall₂ R xs ys)
    (each : ∀ x y s s', x ∈ xs → R x y → s.Alongside image s' → Together image (f x) (g y) s s')
    (along : r.Alongside image r') : Together image (xs.forM f) (ys.forM g) r r' := by
  induction pairs generalizing r r' with
  | nil => exact together_pure along PUnit.unit
  | @cons x y xs ys pair _ ih =>
    rw [List.forM_eq_forM, List.forM_eq_forM, List.forM_cons, List.forM_cons]
    refine (each x y r r' (by simp) pair along).bind fun _ s s' along => ?_
    exact ih (fun x y s s' member => each x y s s' (List.mem_cons_of_mem _ member)) along

end Rebuilding

end TensorGraph
