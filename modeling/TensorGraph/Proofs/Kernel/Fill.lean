import TensorGraph.Kernel.Basic

/-! Filling the start of a buffer: when it succeeds, and how the result depends on the function of
the places and on what the buffer held. -/
namespace TensorGraph

namespace Kernel

theorem mapFrom_eq_some {α β : Type} {f : Nat → α → Option β} {base : Nat} {xs : List α}
    {ys : List β} :
    mapFrom f base xs = some ys ↔
      ys.length = xs.length ∧ ∀ i (inXs : i < xs.length) (inYs : i < ys.length),
        f (base + i) xs[i] = some ys[i] := by
  induction xs generalizing base ys with
  | nil => cases ys <;> simp [mapFrom]
  | cons x xs ih =>
    simp only [mapFrom, bind, Option.bind_eq_some_iff, Option.some.injEq]
    constructor
    · rintro ⟨y, atHead, rest, atRest, rfl⟩
      obtain ⟨sameLength, places⟩ := ih.mp atRest
      refine ⟨by simp [sameLength], ?_⟩
      rintro (_ | i) inXs inYs
      · simpa using atHead
      · have atPlace := places i (by simpa using inXs) (by simpa using inYs)
        rw [Nat.add_right_comm base 1 i] at atPlace
        exact atPlace
    · rintro ⟨sameLength, places⟩
      cases ys with
      | nil => simp at sameLength
      | cons y ys =>
        refine ⟨y, places 0 (by simp) (by simp), ys, ih.mpr ⟨?_, ?_⟩, rfl⟩
        · simpa using sameLength
        · intro i inXs inYs
          have atPlace := places (i + 1) (by simpa using inXs) (by simpa using inYs)
          rw [Nat.add_right_comm base 1 i]
          exact atPlace

theorem mapFrom_isSome {α β : Type} {f : Nat → α → Option β} {base : Nat} {xs : List α}
    (everywhere : ∀ i (inXs : i < xs.length), (f (base + i) xs[i]).isSome) :
    (mapFrom f base xs).isSome := by
  induction xs generalizing base with
  | nil => rfl
  | cons x xs ih =>
    obtain ⟨y, atHead⟩ := Option.isSome_iff_exists.mp (everywhere 0 (by simp))
    have rest : (mapFrom f (base + 1) xs).isSome := ih fun i inXs => by
      have atPlace := everywhere (i + 1) (by simpa using inXs)
      rw [Nat.add_right_comm base 1 i]
      exact atPlace
    obtain ⟨ys, atRest⟩ := Option.isSome_iff_exists.mp rest
    simp only [Nat.add_zero, List.getElem_cons_zero] at atHead
    simp [mapFrom, atHead, atRest]

theorem fill_eq_ok {α : Type} {out filled : Array α} {n : Nat} {f : Nat → α → Option α}
    (fits : n ≤ out.size) :
    fill out n f = .ok filled ↔
      ∃ ys : Array α, ys.size = n ∧ filled = ys ++ out.extract n out.size ∧
        ∀ i (inOut : i < out.size) (inYs : i < ys.size), f i out[i] = some ys[i] := by
  simp only [fill, fits, ↓reduceIte]
  constructor
  · intro ran
    split at ran
    · rename_i ys mapped
      obtain ⟨sameLength, places⟩ := mapFrom_eq_some.mp mapped
      cases ran
      refine ⟨ys.toArray, by simp [sameLength, fits], rfl, ?_⟩
      intro i inOut inYs
      have inStart : i < (out.extract 0 n).toList.length := by
        rw [← sameLength]
        simpa using inYs
      simpa using places i inStart (by simpa using inYs)
    · cases ran
  · rintro ⟨ys, size, rfl, places⟩
    have mapped : mapFrom f 0 (out.extract 0 n).toList = some ys.toList := by
      refine mapFrom_eq_some.mpr ⟨by simp [size, fits], ?_⟩
      intro i inStart inYs
      have bound : i < out.size := by
        simp at inStart
        omega
      simpa using places i bound (by simpa using inYs)
    rw [mapped]

/-- A filled buffer has the size it had. -/
theorem size_fill {α : Type} {out filled : Array α} {n : Nat} {f : Nat → α → Option α}
    (ran : fill out n f = .ok filled) : filled.size = out.size := by
  by_cases fits : n ≤ out.size
  · obtain ⟨ys, size, rfl, -⟩ := (fill_eq_ok fits).mp ran
    simp [size]
    omega
  · simp [fill, fits] at ran

/-- A fill succeeds when every place has a result. -/
theorem fill_isOk {α : Type} {out : Array α} {n : Nat} {f : Nat → α → Option α}
    (fits : n ≤ out.size) (everywhere : ∀ i x, i < n → (f i x).isSome) :
    ∃ filled, fill out n f = .ok filled := by
  have mapped : (mapFrom f 0 (out.extract 0 n).toList).isSome :=
    mapFrom_isSome fun i inXs => everywhere _ _ (by simp at inXs; omega)
  obtain ⟨ys, mapped⟩ := Option.isSome_iff_exists.mp mapped
  exact ⟨ys.toArray ++ out.extract n out.size, by simp only [fill, fits, ↓reduceIte, mapped]⟩

/-- A fill of a buffer with slack gives what the fill of a buffer of just the right size gives,
followed by the slack, when every place that has a result there has the same here. -/
theorem fill_extends {α : Type} {exact filled roomy : Array α} {n : Nat}
    {f g : Nat → α → Option α} (ran : fill exact n f = .ok filled) (size : exact.size = n)
    (fits : n ≤ roomy.size)
    (agree : ∀ i (inExact : i < exact.size) (inRoomy : i < roomy.size) y,
      f i exact[i] = some y → g i roomy[i] = some y) :
    fill roomy n g = .ok (filled ++ roomy.extract n roomy.size) := by
  obtain ⟨ys, sizeYs, rfl, places⟩ := (fill_eq_ok (Nat.le_of_eq size.symm)).mp ran
  have noSlack : exact.extract n exact.size = #[] := by simp [size]
  rw [noSlack, Array.append_empty]
  refine (fill_eq_ok fits).mpr ⟨ys, sizeYs, rfl, ?_⟩
  intro i inRoomy inYs
  have inExact : i < exact.size := by omega
  exact agree i inExact inRoomy _ (places i inExact inYs)

end Kernel

end TensorGraph
