import Mathlib.Algebra.GroupWithZero.Nat
import TensorGraph.Text.Numeral

/-! Unsigned numerals: what is read as one, and that a number written in decimal is read back. -/
namespace TensorGraph.Text

/-- ASCII digits, at least one, that stand for the number. Leading zeros do not count. -/
structure Decimal (cs : List Char) (n : Nat) : Prop where
  nonempty : cs ≠ []
  digits : ∀ c ∈ cs, c.isDigit
  value : Nat.ofDigitChars 10 cs 0 = n

/-- A decimal below `2 ^ 64`, with a plus sign or without. -/
def Numeral (cs : List Char) (n : Nat) : Prop :=
  ∃ ds, (cs = ds ∨ cs = '+' :: ds) ∧ Decimal ds n ∧ n < 2 ^ 64

theorem digit?_eq (c : Char) : digit? c = if c.isDigit then some (c.toNat - '0'.toNat) else none := by
  have same : ('0' ≤ c ∧ c ≤ '9') ↔ c.isDigit := by
    rw [Char.isDigit_iff_toNat]
    rfl
  simp only [digit?, same]

theorem le_ofDigitChars (cs : List Char) (acc : Nat) : acc ≤ Nat.ofDigitChars 10 cs acc := by
  induction cs generalizing acc with
  | nil => exact Nat.le_refl acc
  | cons c cs ih =>
    rw [Nat.ofDigitChars_cons]
    exact Nat.le_trans (by omega) (ih _)

/-- A value that left the range does not come back, so only the last one counts. -/
theorem digits?_eq_ok {limit : Nat} {overflow : NumeralFault} {acc n : Nat} {cs : List Char} (inRange : acc ≤ limit) :
    digits? limit overflow acc cs = .ok n ↔
      (∀ c ∈ cs, c.isDigit) ∧ Nat.ofDigitChars 10 cs acc = n ∧ n ≤ limit := by
  induction cs generalizing acc with
  | nil =>
    simp only [digits?, Nat.ofDigitChars_nil, Except.ok.injEq, List.not_mem_nil, false_implies, implies_true, true_and]
    exact ⟨fun same => ⟨same, same ▸ inRange⟩, And.left⟩
  | cons c cs ih =>
    have grows := le_ofDigitChars cs (10 * acc + (c.toNat - '0'.toNat))
    simp only [digits?, digit?_eq, Nat.ofDigitChars_cons, List.forall_mem_cons]
    by_cases digit : c.isDigit
    · simp only [digit, ↓reduceIte, true_and, Nat.mul_comm acc 10]
      split
      · rename_i below
        exact ih below
      · rename_i above
        simp only [reduceCtorEq, false_iff]
        rintro ⟨-, rfl, below⟩
        exact above (Nat.le_trans grows below)
    · simp [digit]

/-- Numerals are what is read as an unsigned number. -/
theorem natural?_eq_ok {cs : List Char} {n : Nat} : natural? cs = .ok n ↔ Numeral cs n := by
  have read : ∀ ds, ds ≠ [] → (digits? (UInt64.size - 1) .tooLarge 0 ds = .ok n ↔ Decimal ds n ∧ n < 2 ^ 64) := by
    intro ds nonempty
    have last : n ≤ UInt64.size - 1 ↔ n < 2 ^ 64 := Nat.le_sub_one_iff_lt (by decide)
    rw [digits?_eq_ok (Nat.zero_le _), last]
    exact ⟨fun ⟨digits, value, below⟩ => ⟨⟨nonempty, digits, value⟩, below⟩,
      fun ⟨decimal, below⟩ => ⟨decimal.digits, decimal.value, below⟩⟩
  unfold natural?
  split
  · simp only [reduceCtorEq, false_iff]
    rintro ⟨ds, rfl | none, decimal, -⟩
    · exact decimal.nonempty rfl
    · cases none
  · simp only [reduceCtorEq, false_iff]
    rintro ⟨ds, rfl | sign, decimal, -⟩
    · exact absurd (decimal.digits '+' List.mem_cons_self) (by decide)
    · cases sign
      exact decimal.nonempty rfl
  · rename_i rest some
    rw [read rest (by rintro rfl; exact some rfl)]
    constructor
    · exact fun ⟨decimal, below⟩ => ⟨rest, .inr rfl, decimal, below⟩
    · rintro ⟨ds, rfl | sign, decimal, below⟩
      · exact absurd (decimal.digits '+' List.mem_cons_self) (by decide)
      · cases sign
        exact ⟨decimal, below⟩
  · rename_i nonempty _ unsigned
    rw [read cs nonempty]
    constructor
    · exact fun ⟨decimal, below⟩ => ⟨cs, .inl rfl, decimal, below⟩
    · rintro ⟨ds, rfl | rfl, decimal, below⟩
      · exact ⟨decimal, below⟩
      · exact absurd rfl (unsigned ds)

theorem Numeral.ne_nil {cs : List Char} {n : Nat} (number : Numeral cs n) : cs ≠ [] := by
  obtain ⟨ds, rfl | rfl, decimal, -⟩ := number
  · exact decimal.nonempty
  · exact List.cons_ne_nil _ _

theorem not_numeral_colon {cs : List Char} {n : Nat} : ¬ Numeral (':' :: cs) n := by
  rintro ⟨ds, rfl | sign, decimal, -⟩
  · exact absurd (decimal.digits ':' List.mem_cons_self) (by decide)
  · cases sign

/-- A number as it is written. -/
theorem decimal_toDigits (n : Nat) : Decimal (Nat.toDigits 10 n) n :=
  ⟨Nat.toDigits_ne_nil, fun _ member => Nat.isDigit_of_mem_toDigits (by decide) (by decide) member,
    Nat.ofDigitChars_ten_toDigits⟩

theorem numeral_toDigits {n : Nat} (inRange : n < 2 ^ 64) : Numeral (Nat.toDigits 10 n) n :=
  ⟨_, .inl rfl, decimal_toDigits n, inRange⟩

end TensorGraph.Text
