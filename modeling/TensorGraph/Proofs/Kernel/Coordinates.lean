import Mathlib.Data.List.Nodup
import TensorGraph.Proofs.Kernel.Elements

/-! Elements by their coordinates. A tensor stores its elements row by row; the coordinates of an element, one
along each axis, tell its place, and every place of the shape has coordinates of its own. -/
namespace TensorGraph

open Checked

namespace Shape

/-- The coordinates lie in the shape: one along each axis, below its extent. -/
def Inside (s : Shape) (c : List Nat) : Prop := List.Forall₂ (· < ·) c s

/-- The place of the element with those coordinates. -/
def place : Shape → List Nat → Nat
  | _ :: ds, i :: is => i * volume ds + place ds is
  | _, _ => 0

/-- The coordinates in a shape, in the order of their places. -/
def coordinates : Shape → List (List Nat)
  | [] => [[]]
  | d :: ds => (List.range d).flatMap fun i => (coordinates ds).map (i :: ·)

variable {a b s : Shape} {c c' x y : List Nat}

theorem Inside.length_eq (inside : s.Inside c) : c.length = s.length := List.Forall₂.length_eq inside

theorem Inside.append (left : a.Inside x) (right : b.Inside y) : Inside (a ++ b) (x ++ y) :=
  List.rel_append left right

/-- Coordinates in a shape split where the shape does. -/
theorem Inside.split (inside : Inside (a ++ b) c) : ∃ x y, c = x ++ y ∧ a.Inside x ∧ b.Inside y := by
  refine ⟨c.take a.length, c.drop a.length, (List.take_append_drop _ _).symm, ?_, ?_⟩
  · have start := List.forall₂_take a.length inside
    rwa [List.take_left] at start
  · have rest := List.forall₂_drop a.length inside
    rwa [List.drop_left] at rest

theorem mem_coordinates : c ∈ s.coordinates ↔ s.Inside c := by
  induction s generalizing c with
  | nil => simp [coordinates, Inside]
  | cons d ds ih =>
    simp only [coordinates, List.mem_flatMap, List.mem_range, List.mem_map, ih, Inside,
      List.forall₂_cons_right_iff]
    constructor
    · rintro ⟨i, below, is, inside, rfl⟩
      exact ⟨i, is, below, inside, rfl⟩
    · rintro ⟨i, is, below, inside, rfl⟩
      exact ⟨i, below, is, inside, rfl⟩

/-- Rows of `n` places, one after another. -/
theorem range_mul (m n : Nat) :
    List.range (m * n) = (List.range m).flatMap fun i => (List.range n).map (i * n + ·) := by
  induction m with
  | zero => simp
  | succ m ih =>
    rw [Nat.add_mul, Nat.one_mul, List.range_add, List.range_succ, List.flatMap_append, ih,
      List.flatMap_singleton]

theorem row_div {q r n : Nat} (below : r < n) : (q * n + r) / n = q := by
  rw [Nat.mul_comm, Nat.mul_add_div (Nat.zero_lt_of_lt below), Nat.div_eq_of_lt below, Nat.add_zero]

theorem row_mod {q r n : Nat} (below : r < n) : (q * n + r) % n = r := by
  rw [Nat.mul_comm, Nat.mul_add_mod, Nat.mod_eq_of_lt below]

theorem coordinates_places (s : Shape) : s.coordinates.map s.place = List.range s.volume := by
  induction s with
  | nil => rfl
  | cons d ds ih =>
    rw [coordinates, List.map_flatMap, volume, range_mul]
    congr 1
    funext i
    rw [List.map_map, ← ih, List.map_map]
    rfl

theorem place_lt (inside : s.Inside c) : s.place c < s.volume := by
  have listed : s.place c ∈ s.coordinates.map s.place :=
    List.mem_map_of_mem (mem_coordinates.mpr inside)
  rw [coordinates_places] at listed
  exact List.mem_range.mp listed

/-- Every place has coordinates. -/
theorem exists_coordinates {i : Nat} (inRange : i < s.volume) : ∃ c, s.Inside c ∧ s.place c = i := by
  have listed : i ∈ s.coordinates.map s.place := by
    rw [coordinates_places]
    exact List.mem_range.mpr inRange
  obtain ⟨c, member, at_⟩ := List.mem_map.mp listed
  exact ⟨c, mem_coordinates.mp member, at_⟩

/-- The outer coordinates count the rows of the inner ones. -/
theorem place_append (left : x.length = a.length) :
    place (a ++ b) (x ++ y) = a.place x * b.volume + b.place y := by
  induction a generalizing x with
  | nil =>
    obtain rfl : x = [] := List.length_eq_zero_iff.mp left
    simp [place]
  | cons d ds ih =>
    obtain ⟨i, is, rfl⟩ := List.exists_cons_of_length_eq_add_one left
    have rest : is.length = ds.length := by simpa using left
    simp only [List.cons_append, place, volume_append, ih rest]
    rw [Nat.add_mul, Nat.mul_assoc, Nat.add_assoc]

end Shape

/-- The element of a tensor with those coordinates. -/
def Tensor.get? (t : Tensor) (kind : Kind) (c : List Nat) : Option (Elem kind) :=
  t.elem? kind (t.shape.place c)

namespace Tensor

variable {t u : Tensor} {kind : Kind}

/-- Tensors of one kind and shape are equal when they have the same element at all coordinates. -/
theorem ext_get? (left : t.kind = kind) (right : u.kind = kind) (shape : t.shape = u.shape)
    (same : ∀ c, t.shape.Inside c → t.get? kind c = u.get? kind c) : t = u := by
  apply ext_elem? left right shape
  intro i inRange
  obtain ⟨c, inside, rfl⟩ := Shape.exists_coordinates inRange
  have here := same c inside
  rwa [get?, get?, ← shape] at here

end Tensor

end TensorGraph
