import TensorGraph.Proofs.Kernel.Exchange
import TensorGraph.Proofs.Scalar.Formats

/-! Which functions of two elements give the same for both orders of their operands. Sums and products
do so on every kind, rounding, overflow and NaN included. A maximum or a minimum does unless the
operands are zeros of opposite sign: these compare equal, and the second one is the result. -/
namespace TensorGraph

open Float.Model.UnpackedFloat (isNaN_iff packedZero)

/-- One of two elements is the first of a pair, and the other one is the second. -/
def Opposed {α : Type} (p q x y : α) : Prop := x = p ∧ y = q ∨ x = q ∧ y = p

theorem Opposed.of_map {α β : Type} {up : α → β} {p q x y : α} {p' q' : β}
    (first : ∀ z, up z = p' → z = p) (second : ∀ z, up z = q' → z = q)
    (opposed : Opposed p' q' (up x) (up y)) : Opposed p q x y :=
  opposed.imp (.imp (first x) (second y)) (.imp (second x) (first y))

/-- Zeros of opposite sign, which only floats have. -/
def Elem.OppositeZeros {k : Kind} (x y : Elem k) : Prop :=
  k.isFloat ∧ Opposed Scalar.zero (Scalar.neg Scalar.zero) x y

/-- A comparison that tells any two numbers apart, except two of them, among values of which at most
one is no number. -/
structure Ranked {α : Type} [LT α] (isNaN : α → Bool) (p q : α) : Prop where
  unique : ∀ {x y : α}, isNaN x → isNaN y → x = y
  asymm : ∀ {x y : α}, x < y → ¬ y < x
  level : ∀ {x y : α}, ¬ isNaN x → ¬ isNaN y → ¬ x < y → ¬ y < x → x = y ∨ Opposed p q x y

namespace Ranked

variable {α : Type} [LT α] [DecidableLT α] {isNaN : α → Bool} {p q : α}

/-- The greater and the lesser of two values, a number before what is none, do not depend on their
order unless they are the two that the comparison does not tell apart. -/
theorem extremes_comm (ranked : Ranked isNaN p q) {x y : α} (apart : ¬ Opposed p q x y) :
    (if isNaN x then y else if isNaN y then x else if y < x then x else y) =
        (if isNaN y then x else if isNaN x then y else if x < y then y else x) ∧
      (if isNaN x then y else if isNaN y then x else if x < y then x else y) =
        (if isNaN y then x else if isNaN x then y else if y < x then y else x) := by
  by_cases left : isNaN x
  · by_cases right : isNaN y
    · have same := ranked.unique left right
      subst same
      exact ⟨rfl, rfl⟩
    · simp only [left, right, Bool.false_eq_true, ↓reduceIte, and_self]
  · by_cases right : isNaN y
    · simp only [left, right, Bool.false_eq_true, ↓reduceIte, and_self]
    · simp only [left, right, Bool.false_eq_true, ↓reduceIte]
      by_cases below : y < x
      · have notAbove := ranked.asymm below
        rw [if_pos below, if_neg notAbove, if_neg notAbove, if_pos below]
        exact ⟨rfl, rfl⟩
      · by_cases above : x < y
        · rw [if_neg below, if_pos above, if_pos above, if_neg below]
          exact ⟨rfl, rfl⟩
        · have same := (ranked.level left right above below).resolve_right apart
          subst same
          exact ⟨rfl, rfl⟩

end Ranked

theorem Scalar.Single.ranked : Ranked Float32.isNaN 0.0 (-0.0) where
  unique left right := by
    rw [Float32.isNaN_eq_decide_eq_nan, decide_eq_true_eq] at left right
    rw [left, right]
  asymm less more := Unpacked.lt_asymm (of_decide_eq_true less) (of_decide_eq_true more)
  level {x y} left right above below := by
    have number {z : Float32} (known : ¬ z.isNaN) : z.toModel.unpack ≠ .notANumber :=
      fun none => known (isNaN_iff.mpr none)
    have equal : x == y := Unpacked.beq_of_not_lt (number left) (number right)
      (fun less => above (decide_eq_true less)) (fun less => below (decide_eq_true less))
    exact (Float32.beq_iff_ne_nan_and_eq.mp equal).2.2

theorem Scalar.Double.ranked : Ranked Float.isNaN 0.0 (-0.0) where
  unique left right := by
    rw [Float.isNaN_eq_decide_eq_nan, decide_eq_true_eq] at left right
    rw [left, right]
  asymm less more := Unpacked.lt_asymm (of_decide_eq_true less) (of_decide_eq_true more)
  level {x y} left right above below := by
    have number {z : Float} (known : ¬ z.isNaN) : z.toModel.unpack ≠ .notANumber :=
      fun none => known (isNaN_iff.mpr none)
    have equal : x == y := Unpacked.beq_of_not_lt (number left) (number right)
      (fun less => above (decide_eq_true less)) (fun less => below (decide_eq_true less))
    exact (Float.beq_iff_ne_nan_and_eq.mp equal).2.2

theorem Half.narrow : Unpacked.Narrow Half.format := ⟨by decide, by decide, by decide⟩

theorem Bfloat.narrow : Unpacked.Narrow Bfloat.format := ⟨by decide, by decide, by decide⟩

/-- Halves that single precision takes for zeros of opposite sign are such. -/
theorem Half.opposed {x y : Half} (single : Opposed 0.0 (-0.0) x.toSingle y.toSingle) :
    Opposed Scalar.zero (Scalar.neg Scalar.zero) x y :=
  single.of_map
    (fun _ zero => congrArg (fun bits : BitVec 16 => Half.mk ⟨bits⟩) (narrow.eq_zero (s := .positive) zero))
    (fun _ zero => congrArg (fun bits : BitVec 16 => Half.mk ⟨bits⟩) (narrow.eq_zero (s := .negative) zero))

theorem Bfloat.opposed {x y : Bfloat} (single : Opposed 0.0 (-0.0) x.toSingle y.toSingle) :
    Opposed Scalar.zero (Scalar.neg Scalar.zero) x y :=
  single.of_map
    (fun _ zero => congrArg (fun bits : BitVec 16 => Bfloat.mk ⟨bits⟩) (narrow.eq_zero (s := .positive) zero))
    (fun _ zero => congrArg (fun bits : BitVec 16 => Bfloat.mk ⟨bits⟩) (narrow.eq_zero (s := .negative) zero))

theorem Elem.extremes_comm {k : Kind} {x y : Elem k} (apart : ¬ OppositeZeros x y) :
    Scalar.max x y = Scalar.max y x ∧ Scalar.min x y = Scalar.min y x := by
  by_cases float : k.isFloat
  swap
  · exact Kind.extremes_of_int float x y
  cases k with
  | u8 | u32 | i32 | i64 => exact absurd float Bool.false_ne_true
  | f16 =>
    have widened := Scalar.Single.ranked.extremes_comm fun single => apart ⟨rfl, Half.opposed single⟩
    exact ⟨congrArg Half.ofSingle widened.1, congrArg Half.ofSingle widened.2⟩
  | bf16 =>
    have widened := Scalar.Single.ranked.extremes_comm fun single => apart ⟨rfl, Bfloat.opposed single⟩
    exact ⟨congrArg Bfloat.ofSingle widened.1, congrArg Bfloat.ofSingle widened.2⟩
  | f32 => exact Scalar.Single.ranked.extremes_comm fun same => apart ⟨rfl, same⟩
  | f64 => exact Scalar.Double.ranked.extremes_comm fun same => apart ⟨rfl, same⟩

/-- Of zeros of opposite sign the second one is the greater and the lesser. -/
theorem Elem.OppositeZeros.extremes {k : Kind} {x y : Elem k} (zeros : OppositeZeros x y) :
    Scalar.max x y = y ∧ Scalar.min x y = y := by
  obtain ⟨float, ⟨rfl, rfl⟩ | ⟨rfl, rfl⟩⟩ := zeros <;> cases k <;>
    first
    | exact absurd float Bool.false_ne_true
    | exact ⟨by decide, by decide⟩

theorem Elem.OppositeZeros.ne {k : Kind} {x y : Elem k} (zeros : OppositeZeros x y) : x ≠ y := by
  obtain ⟨float, ⟨rfl, rfl⟩ | ⟨rfl, rfl⟩⟩ := zeros <;> cases k <;>
    first
    | exact absurd float Bool.false_ne_true
    | decide

theorem Elem.OppositeZeros.symm {k : Kind} {x y : Elem k} (zeros : OppositeZeros x y) : OppositeZeros y x :=
  ⟨zeros.1, zeros.2.symm.imp And.symm And.symm⟩

theorem Scalar.Single.regular : Kind.Regular .f32 where
  add x y := congrArg (fun u => Float32.ofModel (.pack u))
    (Unpacked.add_comm .binary32 x.toModel.unpack y.toModel.unpack)
  mul x y := congrArg (fun u => Float32.ofModel (.pack u))
    (Unpacked.mul_comm .binary32 x.toModel.unpack y.toModel.unpack)
  neg x := Float32.toBits_inj.mp (UInt32.toBitVec_inj.mp (Unpacked.pack_neg_neg (by decide) x.toModel.valid))

theorem Scalar.Double.regular : Kind.Regular .f64 where
  add x y := congrArg (fun u => Float.ofModel (.pack u))
    (Unpacked.add_comm .binary64 x.toModel.unpack y.toModel.unpack)
  mul x y := congrArg (fun u => Float.ofModel (.pack u))
    (Unpacked.mul_comm .binary64 x.toModel.unpack y.toModel.unpack)
  neg x := Float.toBits_inj.mp (UInt64.toBitVec_inj.mp (Unpacked.pack_neg_neg (by decide) x.toModel.valid))

theorem word_flip (word : UInt16) : (word ^^^ 0x8000) ^^^ 0x8000 = word := by
  rw [UInt16.xor_assoc, UInt16.xor_self, UInt16.xor_zero]

theorem Half.regular : Kind.Regular .f16 where
  add _ _ := congrArg ofSingle (Scalar.Single.regular.add ..)
  mul _ _ := congrArg ofSingle (Scalar.Single.regular.mul ..)
  neg x := congrArg mk (word_flip (bits x))

theorem Bfloat.regular : Kind.Regular .bf16 where
  add _ _ := congrArg ofSingle (Scalar.Single.regular.add ..)
  mul _ _ := congrArg ofSingle (Scalar.Single.regular.mul ..)
  neg x := congrArg mk (word_flip (bits x))

/-- On every kind sums and products have their operands in any order, and a sign may be changed twice. -/
theorem Kind.regular (k : Kind) : k.Regular := by
  by_cases float : k.isFloat
  swap
  · exact Kind.regular_of_int float
  cases k with
  | u8 | u32 | i32 | i64 => exact absurd float Bool.false_ne_true
  | f16 => exact Half.regular
  | bf16 => exact Bfloat.regular
  | f32 => exact Scalar.Single.regular
  | f64 => exact Scalar.Double.regular

/-- A function whose operands may be exchanged gives the same element for both orders, down to the bits,
unless it chooses between zeros of opposite sign. -/
theorem Binary.apply_comm_iff {f : Binary} (commutes : f.isCommutative) {k : Kind} (x y : Elem k) :
    f.apply x y = f.apply y x ↔ ¬ ((f = .max ∨ f = .min) ∧ Elem.OppositeZeros x y) := by
  constructor
  · rintro same ⟨rfl | rfl, zeros⟩
    · refine zeros.ne ?_
      calc x = Binary.max.apply y x := zeros.symm.extremes.1.symm
        _ = Binary.max.apply x y := same.symm
        _ = y := zeros.extremes.1
    · refine zeros.ne ?_
      calc x = Binary.min.apply y x := zeros.symm.extremes.2.symm
        _ = Binary.min.apply x y := same.symm
        _ = y := zeros.extremes.2
  · intro allowed
    cases f with
    | add => exact k.regular.add x y
    | mul => exact k.regular.mul x y
    | max => exact (Elem.extremes_comm fun zeros => allowed ⟨.inl rfl, zeros⟩).1
    | min => exact (Elem.extremes_comm fun zeros => allowed ⟨.inr rfl, zeros⟩).2
    | sub | div | pow => exact absurd commutes Bool.false_ne_true

/-- NaN and a negative half, the greater of which is the number. -/
theorem Binary.apply_comm_iff_nan : Binary.max.isCommutative ∧
    Binary.max.apply (Elem.ofBits .f16 0x7e01) (Elem.ofBits .f16 0xb800) =
      Binary.max.apply (Elem.ofBits .f16 0xb800) (Elem.ofBits .f16 0x7e01) :=
  ⟨rfl, (Binary.apply_comm_iff rfl _ _).mpr fun both => absurd both.2.2 (by unfold Opposed; decide)⟩

/-- The greater of zero and its opposite has the sign of the operand that comes second. -/
theorem Binary.max_shows_order : Binary.max.isCommutative ∧
    (Binary.max.apply (Elem.ofBits .f32 0) (Elem.ofBits .f32 0x80000000)).bits = 0x80000000 ∧
    (Binary.max.apply (Elem.ofBits .f32 0x80000000) (Elem.ofBits .f32 0)).bits = 0 := by
  decide

end TensorGraph
