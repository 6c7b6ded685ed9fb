import TensorGraph.Error

/-!
Concrete extents of a tensor, known once inputs are bound. Elements are laid out row by row: the
last axis varies fastest. Sizes are counted in machine words, and a count that overflows is a crash.
-/

namespace TensorGraph

/-- The extent of each axis. -/
abbrev Shape := List Nat

namespace Shape

/-- Number of elements. -/
def volume : Shape → Nat
  | [] => 1
  | d :: ds => d * volume ds

/-- One more than the largest machine word. -/
def word : Nat := 18446744073709551616

/-- One more than the number of elements that any memory has room for. -/
def capacity : Nat := 1152921504606846976

/-- A product in machine words, from left to right. It may overflow on the way to zero. -/
def product? (n : Nat) : List Nat → Option Nat
  | [] => some n
  | d :: ds => if n * d < word then product? (n * d) ds else none

/-- Whether a machine word counts the elements. -/
def counts (s : Shape) : Bool := (product? 1 s).isSome

/-- Whether the elements can be counted and there may be memory for them. -/
def fits (s : Shape) : Bool := s.counts && s.volume < capacity

/-- Distance between neighbours along each axis. -/
def strides : Shape → List Nat
  | [] => []
  | _ :: ds => volume ds :: strides ds

/-- The extents of an elementwise result: the operands agree, or one of them has no axes. -/
def broadcast (op : String) (a b : Shape) : Except Error Shape :=
  if a = b ∨ b = [] then .ok a
  else if a = [] then .ok b
  else .error (.shape op ("cannot broadcast " ++ Text.numbers a ++ " with " ++ Text.numbers b))

theorem product?_eq_some {n m : Nat} {ds : List Nat} (counted : product? n ds = some m) : m = n * volume ds := by
  induction ds generalizing n with
  | nil => simpa [product?, volume] using counted.symm
  | cons d ds ih =>
    unfold product? at counted
    split at counted
    · rw [ih counted, volume, Nat.mul_assoc]
    · cases counted

theorem counts_of_fits {s : Shape} (h : s.fits) : s.counts := (Bool.and_eq_true_iff.mp h).1

theorem volume_lt_of_fits {s : Shape} (h : s.fits) : s.volume < capacity :=
  of_decide_eq_true (Bool.and_eq_true_iff.mp h).2

@[simp] theorem length_strides (s : Shape) : s.strides.length = s.length := by
  induction s with
  | nil => rfl
  | cons d ds ih => simp [strides, ih]

theorem volume_append (a b : Shape) : volume (a ++ b) = volume a * volume b := by
  induction a with
  | nil => simp [volume]
  | cons d ds ih => simp [volume, ih, Nat.mul_assoc]

end Shape

end TensorGraph
