import TensorGraph.Kernel.MatMul
import TensorGraph.Proofs.Kernel.Fill
import TensorGraph.Proofs.Logic.Checked

/-! Two buffers written in step. A kernel that is run on two outputs writes the same to the first places of both
and leaves the rest of each as it was: run against itself, that says what it may change, and run against
other arguments, what its result depends on. -/
namespace TensorGraph.Kernel

open Checked

variable {α : Type}

theorem getElem?_start (xs : Array α) (n i : Nat) : (xs.extract 0 n)[i]? = if i < n then xs[i]? else none := by
  rw [Array.getElem?_extract, Nat.sub_zero, Nat.zero_add]
  by_cases inStart : i < n
  · rw [if_pos inStart]
    split
    · rfl
    · rw [Array.getElem?_eq_none (by omega)]
  · rw [if_neg inStart, if_neg (by omega)]

theorem sameStart_iff {n : Nat} {xs ys : Array α} : SameStart n xs ys ↔ xs.extract 0 n = ys.extract 0 n := by
  refine ⟨SameStart.extract_eq, fun same i inStart => ?_⟩
  have here := congrArg (·[i]?) same
  simp only [getElem?_start, if_pos inStart] at here
  exact here

theorem getElem?_from (xs : Array α) (k i : Nat) : (xs.extract k xs.size)[i]? = xs[k + i]? := by
  rw [Array.getElem?_extract, Nat.min_self]
  split
  · rfl
  · rw [Array.getElem?_eq_none (by omega)]

/-- What holds of the start holds of a part of it. -/
theorem SameStart.from {k m n : Nat} {xs ys : Array α} (same : SameStart n xs ys) (part : k + m ≤ n) :
    SameStart m (xs.extract k xs.size) (ys.extract k ys.size) := by
  intro i inPart
  rw [getElem?_from, getElem?_from]
  exact same (k + i) (by omega)

/-- The arrays are the old ones with their first `n` places written, by the same elements. -/
structure Overwritten (n : Nat) (old old' new new' : Array α) : Prop where
  size : new.size = old.size
  size' : new'.size = old'.size
  rest : ∀ i, n ≤ i → new[i]? = old[i]?
  rest' : ∀ i, n ≤ i → new'[i]? = old'[i]?
  start : SameStart n new new'

/-- Elements put in front of what is left of two buffers. -/
theorem overwritten_append {n : Nat} {old old' ys : Array α} (fits : n ≤ old.size) (fits' : n ≤ old'.size)
    (size : ys.size = n) :
    Overwritten n old old' (ys ++ old.extract n old.size) (ys ++ old'.extract n old'.size) where
  size := by simp [size, fits]
  size' := by simp [size, fits']
  rest i beyond := by
    rw [Array.getElem?_append_right (by omega), getElem?_from, size]
    congr 1
    omega
  rest' i beyond := by
    rw [Array.getElem?_append_right (by omega), getElem?_from, size]
    congr 1
    omega
  start i inStart := by
    rw [Array.getElem?_append_left (by omega), Array.getElem?_append_left (by omega)]

theorem mapFrom_congr {α β γ : Type} {f : Nat → α → Option γ} {g : Nat → β → Option γ} {xs : List α} {ys : List β}
    {base : Nat} (length : xs.length = ys.length)
    (same : ∀ i (inXs : i < xs.length) (inYs : i < ys.length), f (base + i) xs[i] = g (base + i) ys[i]) :
    mapFrom f base xs = mapFrom g base ys := by
  induction xs generalizing ys base with
  | nil =>
    obtain rfl : ys = [] := List.length_eq_zero_iff.mp length.symm
    rfl
  | cons x xs ih =>
    obtain ⟨y, ys, rfl⟩ := List.exists_cons_of_length_eq_add_one length.symm
    have head : f base x = g base y := same 0 (by simp) (by simp)
    have tail : mapFrom f (base + 1) xs = mapFrom g (base + 1) ys := by
      apply ih (by simpa using length)
      intro i inXs inYs
      have here := same (i + 1) (by simpa using inXs) (by simpa using inYs)
      rw [Nat.add_right_comm base 1 i]
      exact here
    rw [mapFrom, mapFrom, head, tail]

/-- Two buffers are filled in step by functions that give the same for each place and what the buffers hold there. -/
theorem fill_inStep {old old' : Array α} {n : Nat} {f g : Nat → α → Option α} (fits : n ≤ old.size)
    (fits' : n ≤ old'.size)
    (same : ∀ i, i < n → ∀ x y, old[i]? = some x → old'[i]? = some y → f i x = g i y) :
    InStep (Overwritten n old old') (fill old n f) (fill old' n g) := by
  have mapped : mapFrom f 0 (old.extract 0 n).toList = mapFrom g 0 (old'.extract 0 n).toList := by
    apply mapFrom_congr (by simp [fits, fits'])
    intro i inXs inYs
    have inOld : i < n := by
      simp at inXs
      omega
    simp only [Nat.zero_add, Array.getElem_toList, Array.getElem_extract]
    exact same i inOld _ _ (Array.getElem?_eq_getElem _) (Array.getElem?_eq_getElem _)
  simp only [fill, if_pos fits, if_pos fits', mapped]
  cases result : mapFrom g 0 (old'.extract 0 n).toList with
  | none => exact .error _
  | some ys =>
    have length := (mapFrom_eq_some.mp result).1
    exact .ok (overwritten_append fits fits' (by simpa [fits'] using length))

end TensorGraph.Kernel
