import Mathlib
import TensorGraph.Scalar.Narrow

/-! What the arithmetic of the binary formats keeps when operands are exchanged or a sign is changed
twice. A comparison tells any two numbers apart except zeros of opposite sign, and single precision has
a zero only for a zero of a narrower format. -/
namespace TensorGraph.Unpacked

open Float.Model (Format UnpackedFloat totalExponent)
open Float.Model.UnpackedFloat

section Exchange

theorem signs_comm (s t : Sign) : s * t = t * s := by
  cases s <;> cases t <;> rfl

theorem add_comm (format : Format) (u v : UnpackedFloat) :
    UnpackedFloat.add format u v = UnpackedFloat.add format v u := by
  cases u <;> cases v
  case infinity.infinity s t => cases s <;> cases t <;> rfl
  case zero.zero s t => cases s <;> cases t <;> rfl
  case finite.finite s m e _ t n d _ =>
    -- Both orders align the mantissas at the smaller exponent.
    simp only [UnpackedFloat.add]
    rw [Int.min_comm d e, Int.add_comm]
  all_goals rfl

theorem mul_comm (format : Format) (u v : UnpackedFloat) :
    UnpackedFloat.mul format u v = UnpackedFloat.mul format v u := by
  cases u <;> cases v
  case finite.finite s m e _ t n d _ =>
    simp only [UnpackedFloat.mul]
    rw [signs_comm t s, Nat.mul_comm n m, Int.add_comm d e]
  all_goals first
    | rfl
    | simp only [UnpackedFloat.mul, signs_comm]

theorem compare_swap (u v : UnpackedFloat) : v.compare u = (u.compare v).map Ordering.swap := by
  have magnitudes (m n : Nat) (e d : Int) :
      (compare d e).then (compare n m) = ((compare e d).then (compare m n)).swap := by
    rw [Ordering.swap_then, ← Std.OrientedCmp.eq_swap, ← Std.OrientedCmp.eq_swap]
  cases u <;> cases v
  case infinity.infinity s t => cases s <;> cases t <;> rfl
  case infinity.zero s _ => cases s <;> rfl
  case infinity.finite s _ _ _ _ => cases s <;> rfl
  case zero.infinity _ t => cases t <;> rfl
  case finite.infinity _ _ _ _ t => cases t <;> rfl
  case zero.finite _ t _ _ _ => cases t <;> rfl
  case finite.zero s _ _ _ _ => cases s <;> rfl
  case finite.finite s m e _ t n d _ =>
    have swapped := magnitudes m n e d
    cases s <;> cases t <;>
      simp only [UnpackedFloat.compare, Option.map_some, Ordering.swap_swap, swapped] <;> rfl
  all_goals rfl

theorem compare_isSome {u v : UnpackedFloat} (left : u ≠ .notANumber) (right : v ≠ .notANumber) :
    (u.compare v).isSome := by
  cases u <;> cases v
  case infinity.zero s _ => cases s <;> rfl
  case infinity.finite s _ _ _ _ => cases s <;> rfl
  case zero.infinity _ t => cases t <;> rfl
  case finite.infinity _ _ _ _ t => cases t <;> rfl
  case zero.finite _ t _ _ _ => cases t <;> rfl
  case finite.zero s _ _ _ _ => cases s <;> rfl
  case finite.finite s _ _ _ t _ _ _ => cases s <;> cases t <;> rfl
  all_goals first
    | rfl
    | exact absurd rfl left
    | exact absurd rfl right

theorem lt_asymm {u v : UnpackedFloat} (below : u.lt v) : ¬ v.lt u := by
  have less : u.compare v = some .lt := eq_of_beq below
  unfold UnpackedFloat.lt
  rw [compare_swap u v, less]
  decide

/-- Two numbers of which neither is less are equal as far as a comparison tells. -/
theorem beq_of_not_lt {u v : UnpackedFloat} (left : u ≠ .notANumber) (right : v ≠ .notANumber)
    (above : ¬ u.lt v) (below : ¬ v.lt u) : u.beq v := by
  obtain ⟨order, compared⟩ := Option.isSome_iff_exists.mp (compare_isSome left right)
  unfold UnpackedFloat.lt at above below
  rw [compare_swap u v] at below
  unfold UnpackedFloat.beq
  rw [compared] at above below ⊢
  cases order with
  | eq => rfl
  | lt => exact absurd rfl above
  | gt => exact absurd rfl below

end Exchange

section Signs

variable {format : Format}

theorem neg_neg (u : UnpackedFloat) : u.neg.neg = u := by
  rcases u with s | _ | s | ⟨s, m, e, pos⟩
  · cases s <;> rfl
  · rfl
  · cases s <;> rfl
  · cases s <;> rfl

/-- The bits with the other sign. -/
def flipped (bits : BitVec format.numBits) : BitVec format.numBits :=
  packComponents format (-Sign.ofBitVec (unpackSign bits)) (unpackExponent bits) (unpackMantissa bits)

theorem unpack_flipped (bits : BitVec format.numBits) :
    unpack format (flipped bits) = (unpack format bits).neg := by
  have sign : unpackSign (flipped bits) = (-Sign.ofBitVec (unpackSign bits)).toBitVec :=
    unpackSign_packComponents ..
  have exponent : unpackExponent (flipped bits) = unpackExponent bits := unpackExponent_packComponents
  have mantissa : unpackMantissa (flipped bits) = unpackMantissa bits := unpackMantissa_packComponents
  simp only [unpack, sign, exponent, mantissa, Sign.ofBitVec_toBitVec]
  split
  · split <;> rfl
  · split
    · split <;> rfl
    · rfl

/-- Packing loses nothing of what came out of bits, except which bits of NaN they were. -/
theorem unpack_pack_unpack (wide : 2 ≤ format.exponentBits) (bits : BitVec format.numBits) :
    unpack format (pack format (unpack format bits)) = unpack format bits := by
  rw [pack_unpack bits wide]
  split
  · rename_i nan
    have fields := of_decide_eq_true nan
    rw [unpack_packedNaN]
    simp [unpack, fields]
  · rfl

/-- A sign changed twice leaves the bits as they were. -/
theorem pack_neg_neg (wide : 2 ≤ format.exponentBits) {bits : BitVec format.numBits}
    (valid : format.Valid bits) :
    pack format (unpack format (pack format (unpack format bits).neg)).neg = bits := by
  rw [← unpack_flipped bits, unpack_pack_unpack wide, unpack_flipped, neg_neg]
  exact pack_unpack_of_valid valid wide

end Signs

section Widening

/-- A format with so few digits and so short a range towards zero that single precision has all its
values, up to those that are too great. -/
structure Narrow (source : Format) : Prop where
  wide : 2 ≤ source.exponentBits
  digits : source.mantissaBits ≤ 24
  range : -149 ≤ source.minExponent

/-- A mantissa and an exponent that single precision has room for. -/
structure Fits (m : Nat) (e : Int) : Prop where
  pos : 0 < m
  digits : m < 2 ^ 24
  range : -149 ≤ e

theorem Fits.log2 {m : Nat} {e : Int} (fits : Fits m e) : m.log2 < 24 :=
  (Nat.log2_lt (Nat.ne_of_gt fits.pos)).mpr fits.digits

theorem unpack_finite {source : Format} {bits : BitVec source.numBits} {s : Sign} {m : Nat} {e : Int}
    {pos : 0 < m} (finite : unpack source bits = .finite s m e pos) :
    m < 2 ^ source.mantissaBits ∧ source.minExponent ≤ e := by
  have bias : (source.exponentBias : Int) = 2 ^ (source.exponentBits - 1) - 1 := by
    unfold Format.exponentBias
    push_cast [Nat.cast_sub (Nat.two_pow_pos (source.exponentBits - 1))]
    rfl
  simp only [unpack] at finite
  unfold Format.minExponent Format.mantissaBits
  split at finite
  · split at finite <;> cases finite
  · split at finite
    · split at finite
      · cases finite
      · -- A subnormal value has the least exponent.
        injection finite with _ mantissa exponent
        have bound := (unpackMantissa bits).isLt
        have wider : 2 ^ source.mantissaBitsWithoutImplicit ≤ 2 ^ (1 + source.mantissaBitsWithoutImplicit) :=
          Nat.pow_le_pow_right (by decide) (by omega)
        refine ⟨by omega, ?_⟩
        push_cast
        omega
    · rename_i some
      injection finite with _ mantissa exponent
      have bound := (1#1 ++ unpackMantissa bits).isLt
      have positive : 0 < (unpackExponent bits).toNat :=
        Nat.pos_of_ne_zero fun zero => some (BitVec.eq_of_toNat_eq (by simpa using zero))
      refine ⟨by omega, ?_⟩
      push_cast
      omega

theorem Narrow.fits {source : Format} (narrow : Narrow source) {bits : BitVec source.numBits} {s : Sign}
    {m : Nat} {e : Int} {pos : 0 < m} (finite : unpack source bits = .finite s m e pos) : Fits m e := by
  obtain ⟨digits, range⟩ := unpack_finite finite
  refine ⟨pos, ?_, Int.le_trans narrow.range range⟩
  exact Nat.lt_of_lt_of_le digits (Nat.pow_le_pow_right (by decide) narrow.digits)

theorem targetExponent_single (total : Int) :
    Format.binary32.targetExponent total = Max.max (total - 24) (-149) := rfl

/-- What single precision has room for needs no rounding. -/
theorem roundWithAccuracy_fits (s : Sign) {m : Nat} {e : Int} (fits : Fits m e) :
    roundWithAccuracy .binary32 s m e .exact = .finite s m e fits.pos := by
  have short := fits.log2
  have range := fits.range
  have still : (Format.binary32.targetExponent (totalExponent m e) - e).toNat = 0 := by
    rw [targetExponent_single]
    unfold totalExponent
    omega
  have shifted : shiftToTargetExponent .binary32 m e .exact = (⟨m, false, false⟩, e) := by
    simp only [shiftToTargetExponent, shiftToExponent, still]
    exact Prod.ext rfl (Int.add_zero e)
  have nonzero : m ≠ 0 := Nat.ne_of_gt fits.pos
  simp only [roundWithAccuracy, shifted, ExtendedMantissa.roundedMantissa, ExtendedMantissa.accuracy,
    Accuracy.roundToNearestEven, nonzero, ↓reduceDIte]

/-- Single precision takes a shorter value as it is, with zeros after its mantissa. -/
theorem round_fits (s : Sign) {m : Nat} {e : Int} (fits : Fits m e) :
    ∃ n d, ∃ longer : Fits n d, UnpackedFloat.round .binary32 s m e = .finite s n d longer.pos := by
  let k := (e - Format.binary32.targetExponent (totalExponent m e)).toNat
  have shift : k = (e - Max.max (m.log2 + 1 + e - 24) (-149)).toNat := rfl
  have short := fits.log2
  have range := fits.range
  have longer : Fits (m <<< k) (e - k) := by
    rw [Nat.shiftLeft_eq]
    refine ⟨Nat.mul_pos fits.pos (Nat.two_pow_pos k), ?_, by omega⟩
    calc m * 2 ^ k < 2 ^ (m.log2 + 1) * 2 ^ k :=
          Nat.mul_lt_mul_of_pos_right Nat.lt_log2_self (Nat.two_pow_pos k)
      _ = 2 ^ (m.log2 + 1 + k) := (Nat.pow_add ..).symm
      _ ≤ 2 ^ 24 := Nat.pow_le_pow_right (by decide) (by omega)
  exact ⟨m <<< k, e - k, longer, roundWithAccuracy_fits s longer⟩

theorem pack_fits_ne_zero {s t : Sign} {m : Nat} {e : Int} (fits : Fits m e) :
    pack .binary32 (.finite s m e fits.pos) ≠ packedZero .binary32 t := by
  have range := fits.range
  have nonzero : m ≠ 0 := Nat.ne_of_gt fits.pos
  have short := fits.log2
  have packed : pack .binary32 (.finite s m e fits.pos) =
      if 2 ^ 8 ≤ (e + 127 + 23).toNat + 1 then packedInfinity .binary32 s
      else if m.log2 + 1 = 24 then
        packComponents .binary32 s (BitVec.ofNat 8 (e + 127 + 23).toNat) (BitVec.ofNat 23 m)
      else packComponents .binary32 s 0#8 (BitVec.ofNat 23 m) := rfl
  intro same
  rw [packed] at same
  split at same
  · cases s <;> cases t <;> exact absurd same (by decide)
  · split at same
    · -- The exponent field of a normal value is not zero.
      have exponent := congrArg unpackExponent same
      rw [packedZero, unpackExponent_packComponents, unpackExponent_packComponents] at exponent
      have field : (e + 127 + 23).toNat % 2 ^ 8 = 0 := congrArg BitVec.toNat exponent
      omega
    · -- The mantissa field of a subnormal value is not zero.
      have mantissa := congrArg unpackMantissa same
      rw [packedZero, unpackMantissa_packComponents, unpackMantissa_packComponents] at mantissa
      have field : m % 2 ^ 23 = 0 := congrArg BitVec.toNat mantissa
      have below : m < 2 ^ 23 := (Nat.log2_lt nonzero).mp (by omega)
      omega

theorem eq_packedZero {source : Format} (wide : 2 ≤ source.exponentBits) {bits : BitVec source.numBits}
    {s : Sign} (zero : unpack source bits = .zero s) : bits = packedZero source s := by
  have valid : source.Valid bits := ⟨fun exponent mantissa => by simp [unpack, exponent, mantissa] at zero⟩
  exact (unpack_eq_zero_iff_of_valid valid wide).mp zero

/-- Single precision has a zero only for the zero of that sign. -/
theorem Narrow.eq_zero {source : Format} (narrow : Narrow source) {bits : BitVec source.numBits} {s : Sign}
    (zero : Rounding.toSingle source bits = Float32.ofBits ⟨packedZero .binary32 s⟩) :
    bits = packedZero source s := by
  have packed : (Rounding.into .binary32 (unpack source bits)).pack .binary32 = packedZero .binary32 s :=
    calc _ = (Rounding.toSingle source bits).toBits.toBitVec := (pack_unpack_of_valid valid_pack).symm
      _ = (Float32.ofBits ⟨packedZero .binary32 s⟩).toBits.toBitVec := by rw [zero]
      _ = _ := pack_unpack_of_valid (b := pack .binary32 (.zero s)) valid_pack
  cases value : unpack source bits with
  | notANumber =>
    rw [value] at packed
    cases s <;> exact absurd packed (by decide)
  | infinity t =>
    rw [value] at packed
    cases s <;> cases t <;> exact absurd packed (by decide)
  | zero t =>
    rw [value] at packed
    have sign : t = s := by
      cases s <;> cases t <;> first | rfl | exact absurd packed (by decide)
    exact eq_packedZero narrow.wide (sign ▸ value)
  | finite t m e pos =>
    rw [value] at packed
    obtain ⟨n, d, longer, rounded⟩ := round_fits t (narrow.fits value)
    exact absurd ((congrArg (pack .binary32) rounded).symm.trans packed) (pack_fits_ne_zero longer)

end Widening

end TensorGraph.Unpacked
