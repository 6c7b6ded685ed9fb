import Mathlib.Data.List.GetD
import TensorGraph.Proofs.Kernel.Coordinates

/-! Transposition permutes axes. An element of the result is the element of the operand whose coordinates are
the same in the order of the operand's axes, so transpositions compose as their permutations do. -/
namespace TensorGraph

open Checked Kernel

namespace Axes

/-- The entries of a list in the order of a permutation. -/
def arrange (perm xs : List Nat) : List Nat := perm.map fun p => xs.getD p 0

/-- The permutation that undoes another one. -/
def inverse (perm : List Nat) : List Nat := (List.range perm.length).map perm.idxOf

variable {perm xs ys : List Nat} {n : Nat}

theorem length_arrange : (arrange perm xs).length = perm.length := List.length_map _

/-- Arranging an arrangement arranges by both permutations. -/
theorem arrange_arrange {perm' : List Nat} (inRange : ∀ k ∈ perm', k < perm.length) :
    arrange perm' (arrange perm xs) = arrange (arrange perm' perm) xs := by
  simp only [arrange, List.map_map]
  apply List.map_congr_left
  intro k member
  have inPerm := inRange k member
  simp [List.getD_eq_getElem?_getD, inPerm]

theorem arrange_range (length : xs.length = n) : arrange (List.range n) xs = xs := by
  apply List.ext_getElem
  · rw [length_arrange, List.length_range, length]
  · intro k _ inXs
    simp [arrange, List.getD_eq_getElem?_getD, inXs]

theorem nodup_of_isPermutation (permutes : isPermutation perm n) : perm.Nodup :=
  (Op.perm_of_isPermutation permutes).nodup_iff.mp List.nodup_range

theorem isPermutation_of_nodup (length : perm.length = n) (distinct : perm.Nodup)
    (inRange : ∀ p ∈ perm, p < n) : isPermutation perm n := by
  have sub : perm ⊆ List.range n := fun p member => List.mem_range.mpr (inRange p member)
  have same : perm.Perm (List.range n) :=
    (List.subperm_of_subset distinct sub).perm_of_length_le (by simp [length])
  simp only [isPermutation, length, Bool.and_eq_true, beq_self_eq_true, true_and, List.all_eq_true,
    List.contains_iff_mem]
  intro i member
  exact same.mem_iff.mpr member

theorem arrange_inverse (permutes : isPermutation perm n) : arrange perm (inverse perm) = List.range n := by
  have length := (Op.isPermutation_spec permutes).1
  apply List.ext_getElem
  · rw [length_arrange, List.length_range, length]
  · intro k inArranged inRange
    have inPerm : k < perm.length := by rwa [length_arrange] at inArranged
    have below : perm[k] < perm.length := by
      rw [length]
      exact Op.lt_of_mem_permutation permutes _ (List.getElem_mem inPerm)
    simp [arrange, inverse, List.getD_eq_getElem?_getD, below,
      (nodup_of_isPermutation permutes).idxOf_getElem]

theorem inverse_arrange (permutes : isPermutation perm n) : arrange (inverse perm) perm = List.range n := by
  obtain ⟨length, covers⟩ := Op.isPermutation_spec permutes
  apply List.ext_getElem
  · rw [length_arrange, inverse, List.length_map, List.length_range, List.length_range, length]
  · intro p _ inRange
    have member : p ∈ perm := covers p (by simpa using inRange)
    have found := List.idxOf_lt_length_iff.mpr member
    simp [arrange, inverse, List.getD_eq_getElem?_getD, found]

theorem isPermutation_inverse (permutes : isPermutation perm n) : isPermutation (inverse perm) n := by
  obtain ⟨length, covers⟩ := Op.isPermutation_spec permutes
  apply isPermutation_of_nodup
  · rw [inverse, List.length_map, List.length_range, length]
  · apply List.Nodup.map_on _ List.nodup_range
    intro p member p' _ same
    rw [length] at member
    exact List.idxOf_inj (covers p (List.mem_range.mp member)) |>.mp same
  · intro k member
    obtain ⟨p, inRange, rfl⟩ := List.mem_map.mp member
    rw [length] at inRange
    rw [← length]
    exact List.idxOf_lt_length_iff.mpr (covers p (List.mem_range.mp inRange))

end Axes

open Axes

namespace Shape

variable {s : Shape} {perm c : List Nat}

theorem Inside.arrange (inside : s.Inside c) (inRange : ∀ p ∈ perm, p < s.length) :
    Inside (arrange perm s) (arrange perm c) := by
  have each : List.Forall₂ (fun p q => c.getD p 0 < s.getD q 0) perm perm := by
    apply List.forall₂_same.mpr
    intro p member
    have inS := inRange p member
    have inC : p < c.length := by rwa [inside.length_eq]
    rw [List.getD_eq_getElem _ _ inS, List.getD_eq_getElem _ _ inC]
    exact inside.get inC inS
  exact List.forall₂_map_left_iff.mpr (List.forall₂_map_right_iff.mpr each)

end Shape

namespace Kernel

end Kernel

namespace Op

end Op

/-- The second tensor is the first with its axes in the order of the permutation. -/
structure Transposed (perm : List Nat) (t r : Tensor) : Prop where
  kind : r.kind = t.kind
  shape : r.shape = arrange perm t.shape
  elems : ∀ c, t.shape.Inside c → r.get? t.kind (arrange perm c) = t.get? t.kind c

namespace Transposed

variable {perm perm' : List Nat} {t r u : Tensor}

/-- All coordinates in the result are those of an element of the operand, arranged. -/
theorem origin (transposed : Transposed perm t r) (permutes : isPermutation perm t.shape.length) {c : List Nat}
    (inside : r.shape.Inside c) : ∃ origin, t.shape.Inside origin ∧ c = arrange perm origin := by
  have length := (Op.isPermutation_spec permutes).1
  have inRange := Op.lt_of_mem_permutation (isPermutation_inverse permutes)
  rw [transposed.shape] at inside
  have back : Shape.Inside (arrange (Axes.inverse perm) (arrange perm t.shape)) (arrange (Axes.inverse perm) c) :=
    inside.arrange (by simpa [length_arrange, length] using inRange)
  rw [arrange_arrange (by simpa [length] using inRange), inverse_arrange permutes, arrange_range rfl] at back
  refine ⟨_, back, ?_⟩
  have lengthInverse := (Op.isPermutation_spec (isPermutation_inverse permutes)).1
  rw [arrange_arrange (by simpa [lengthInverse] using Op.lt_of_mem_permutation permutes), arrange_inverse permutes,
    arrange_range (by rw [inside.length_eq, length_arrange, length])]

theorem refl (t : Tensor) : Transposed (List.range t.shape.length) t t where
  kind := rfl
  shape := (arrange_range rfl).symm
  elems c inside := by rw [arrange_range inside.length_eq]

theorem trans (first : Transposed perm t r) (second : Transposed perm' r u)
    (inRange : ∀ p ∈ perm, p < t.shape.length) (inPerm : ∀ k ∈ perm', k < perm.length) :
    Transposed (arrange perm' perm) t u where
  kind := second.kind.trans first.kind
  shape := by rw [second.shape, first.shape, arrange_arrange inPerm]
  elems c inside := by
    have insideR : r.shape.Inside (arrange perm c) := by
      rw [first.shape]
      exact inside.arrange inRange
    rw [← arrange_arrange inPerm, ← first.elems c inside, ← first.kind]
    exact second.elems _ insideR

/-- A permutation determines the transposed tensor. -/
theorem unique (left : Transposed perm t r) (right : Transposed perm t u)
    (permutes : isPermutation perm t.shape.length) : r = u := by
  apply Tensor.ext_get? left.kind right.kind (left.shape.trans right.shape.symm)
  intro c inside
  obtain ⟨origin, insideT, rfl⟩ := left.origin permutes inside
  rw [left.elems origin insideT, right.elems origin insideT]

end Transposed

namespace Op

section

open scoped BlockRoutine

end

end Op

end TensorGraph
