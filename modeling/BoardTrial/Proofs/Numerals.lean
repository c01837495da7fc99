import BoardTrial.Text.Numeral
import Mathlib

/-!
# Doubles and the numerals for them

The double nearest to a number that is a double is that double (`nearestBits_eq`), so that each
double is what its numeral is read as (`Numeral.toFloat_ofFloat`), and no numeral is read as
anything else than a number (`Decimal.isNaN_toFloat`).
-/

namespace BoardTrial

/-! ### Exact numbers -/

theorem roundQuotient_mul (q : Nat) {d : Nat} (h : 0 < d) : roundQuotient (q * d) d = q := by
  simp [roundQuotient, Nat.mul_div_cancel _ h, h]

section Exact

variable {n d m e p q : Nat}

/-- A power of two fits if it does after all is multiplied by powers of two. -/
theorem fits_iff : (if 0 ≤ (p - q : Int) then d <<< (p - q : Int).toNat ≤ n
      else d ≤ n <<< (-(p - q : Int)).toNat) ↔ d * 2 ^ p ≤ n * 2 ^ q := by
  split
  · rename_i h
    have hp : 2 ^ p = 2 ^ (p - q : Int).toNat * 2 ^ q := by
      rw [← Nat.pow_add]
      congr 1
      omega
    rw [Nat.shiftLeft_eq, hp, ← Nat.mul_assoc, Nat.mul_le_mul_right_iff (Nat.two_pow_pos q)]
  · rename_i h
    have hq : 2 ^ q = 2 ^ (-(p - q : Int)).toNat * 2 ^ p := by
      rw [← Nat.pow_add]
      congr 1
      omega
    rw [Nat.shiftLeft_eq, hq, ← Nat.mul_assoc, Nat.mul_le_mul_right_iff (Nat.two_pow_pos p)]

/-- The binary exponent is that of the power of two below. -/
theorem binaryExponent_eq (hd : 0 < d) (hle : d * 2 ^ p ≤ n * 2 ^ q)
    (hlt : n * 2 ^ q < d * 2 ^ (p + 1)) : binaryExponent n d = p - q := by
  have hn : n ≠ 0 := by
    rintro rfl
    have := Nat.mul_pos hd (Nat.two_pow_pos p)
    omega
  have hn₁ := Nat.log2_self_le hn
  have hn₂ := @Nat.lt_log2_self n
  have hd₁ := Nat.log2_self_le hd.ne'
  have hd₂ := @Nat.lt_log2_self d
  have hlow : d.log2 + p < n.log2 + 1 + q := by
    rw [← Nat.pow_lt_pow_iff_right (a := 2) (by decide), Nat.pow_add, Nat.pow_add]
    exact (Nat.mul_le_mul_right _ hd₁).trans_lt
      (hle.trans_lt (Nat.mul_lt_mul_of_pos_right hn₂ (Nat.two_pow_pos q)))
  have hhigh : n.log2 + q < d.log2 + 1 + (p + 1) := by
    rw [← Nat.pow_lt_pow_iff_right (a := 2) (by decide), Nat.pow_add, Nat.pow_add]
    exact (Nat.mul_le_mul_right _ hn₁).trans_lt
      (hlt.trans (Nat.mul_lt_mul_of_pos_right hd₂ (Nat.two_pow_pos (p + 1))))
  rcases (by omega : (n.log2 : Int) - d.log2 = p - q ∨
    (n.log2 : Int) - d.log2 = ((p + 1 : Nat) : Int) - q) with hl | hl
  · simp only [binaryExponent, hl]
    rw [if_pos (fits_iff.mpr hle)]
  · simp only [binaryExponent, hl]
    rw [if_neg (fits_iff.not.mpr (Nat.not_le.mpr hlt))]
    omega

theorem eq_zero_iff_units (hd : 0 < d) (h : n * 2 ^ q = m * 2 ^ p * d) : n = 0 ↔ m = 0 := by
  constructor
  · rintro rfl
    simpa [hd.ne'] using h.symm
  · rintro rfl
    simpa using h

/-- Measured in a unit that goes into it, a number is not rounded. -/
theorem roundQuotient_units (hd : 0 < d) (h : n * 2 ^ q = m * 2 ^ p * d) :
    (if 0 ≤ (p - q : Int) then roundQuotient n (d <<< (p - q : Int).toNat)
      else roundQuotient (n <<< (-(p - q : Int)).toNat) d) = m := by
  split
  · have hp : 2 ^ p = 2 ^ (p - q : Int).toNat * 2 ^ q := by
      rw [← Nat.pow_add]
      congr 1
      omega
    have hn : n = m * (d * 2 ^ (p - q : Int).toNat) := by
      apply Nat.eq_of_mul_eq_mul_right (Nat.two_pow_pos q)
      rw [h, hp]
      ring
    rw [Nat.shiftLeft_eq, hn, roundQuotient_mul _ (Nat.mul_pos hd (Nat.two_pow_pos _))]
  · have hq : 2 ^ q = 2 ^ (-(p - q : Int)).toNat * 2 ^ p := by
      rw [← Nat.pow_add]
      congr 1
      omega
    have hn : n * 2 ^ (-(p - q : Int)).toNat = m * d := by
      apply Nat.eq_of_mul_eq_mul_right (Nat.two_pow_pos p)
      rw [Nat.mul_assoc, ← hq, h, Nat.mul_right_comm]
    rw [Nat.shiftLeft_eq, hn, roundQuotient_mul _ hd]

/-- A number that is a double has the bits of that double nearest. -/
theorem nearestBits_eq (hd : 0 < d) (h : n * 2 ^ 1074 = m * 2 ^ e * d) (hm : m < 2 ^ 53)
    (he : e = 0 ∨ 2 ^ 52 ≤ m) (hfinite : e * 2 ^ 52 + m ≤ 0x7FF0000000000000) :
    nearestBits n d = e * 2 ^ 52 + m := by
  rcases Nat.eq_zero_or_pos m with rfl | hpos
  · obtain rfl : e = 0 := by omega
    obtain rfl := (eq_zero_iff_units hd h).mpr rfl
    rfl
  have hn : n ≠ 0 := (eq_zero_iff_units hd h).not.mpr hpos.ne'
  have hm₁ := Nat.log2_self_le hpos.ne'
  have hm₂ := @Nat.lt_log2_self m
  have hexponent : binaryExponent n d = ((m.log2 + e : Nat) : Int) - (1074 : Nat) := by
    apply binaryExponent_eq hd
    · rw [h, Nat.mul_comm d, Nat.pow_add]
      exact Nat.mul_le_mul_right _ (Nat.mul_le_mul_right _ hm₁)
    · rw [h, Nat.mul_comm d, Nat.add_right_comm, Nat.pow_add]
      exact Nat.mul_lt_mul_of_pos_right (Nat.mul_lt_mul_of_pos_right hm₂ (Nat.two_pow_pos e)) hd
  have hlog : m.log2 < 53 := (Nat.log2_lt hpos.ne').mpr hm
  have hlast : max (binaryExponent n d - 52) (-1074) = (e : Int) - (1074 : Nat) := by
    rw [hexponent]
    rcases he with rfl | he
    · omega
    · have : 52 ≤ m.log2 := (Nat.le_log2 hpos.ne').mpr he
      omega
  have hcount : ((e : Int) - (1074 : Nat) + 1074).toNat = e := by omega
  simp only [nearestBits, if_neg hn, hlast, hcount]
  rw [roundQuotient_units hd h, Nat.shiftLeft_eq, Nat.min_eq_left hfinite]
end Exact

/-! ### The bits of a double -/

section Doubles

open Float.Model Float.Model.UnpackedFloat

/-- The bits of a double. -/
abbrev Bits : Type := BitVec Format.binary64.numBits

theorem isNaNBits_iff (b : Bits) : isNaNBits b = true ↔ 0x7FF0000000000000 < b.toNat % 2 ^ 63 := by
  have he : (unpackExponent b).toNat = b.toNat / 2 ^ 52 % 2 ^ 11 := by
    rw [unpackExponent_def, BitVec.extractLsb'_toNat, Nat.shiftRight_eq_div_pow]
  have hm : (unpackMantissa b).toNat = b.toNat % 2 ^ 52 := by
    rw [unpackMantissa_def, BitVec.extractLsb'_toNat, Nat.shiftRight_zero]
  have hones : (-(BitVec.ofNat Format.binary64.exponentBits 1)).toNat = 2047 := by decide
  have hzero : (BitVec.ofNat Format.binary64.mantissaBitsWithoutImplicit 0).toNat = 0 := by decide
  rw [isNaNBits, decide_eq_true_iff, ← BitVec.toNat_inj, ne_eq, ← BitVec.toNat_inj, he, hm, hones,
    hzero]
  omega

theorem isNaN_iff_toBits (x : Float) :
    x.isNaN = true ↔ 0x7FF0000000000000 < x.toBits.toNat % 2 ^ 63 := by
  let b : Bits := x.toBits.toBitVec
  have hmodel : x.isNaN = true ↔ b = packedNaN Format.binary64 :=
    isNaN_unpack_iff_of_valid x.toModel.valid
  have hbits : isNaNBits b = true ↔ b = packedNaN Format.binary64 := by
    constructor
    · intro h
      rw [isNaNBits, decide_eq_true_iff] at h
      exact x.toModel.valid.eq_packedNaN h.1 h.2
    · intro h
      rw [h]
      exact isNaNBits_packedNaN
  rw [hmodel, ← hbits, isNaNBits_iff]
  rfl

theorem toBits_ofBits {u : UInt64} (h : u.toNat % 2 ^ 63 ≤ 0x7FF0000000000000) :
    (Float.ofBits u).toBits = u := by
  let b : Bits := u.toBitVec
  have hb : ¬isNaNBits b = true := (isNaNBits_iff b).not.mpr (Nat.not_lt.mpr h)
  have hpack : (UnpackedFloat.unpack _ b).pack _ = b := by rw [pack_unpack, if_neg hb]
  exact UInt64.toBitVec_inj.mp hpack

theorem toNat_packComponents (s : Sign) (e : BitVec 11) (m : BitVec 52) :
    (packComponents Format.binary64 s e m).toNat =
      s.toBitVec.toNat * 2 ^ 63 + e.toNat * 2 ^ 52 + m.toNat := by
  have happend : ∀ {k j : Nat} (x : BitVec k) (y : BitVec j),
      (x ++ y).toNat = x.toNat * 2 ^ j + y.toNat := by
    intro k j x y
    rw [BitVec.toNat_append, ← Nat.shiftLeft_add_eq_or_of_lt y.isLt, Nat.shiftLeft_eq]
  rw [packComponents, happend, happend, Nat.add_mul, Nat.mul_assoc, ← Nat.pow_add]

/-- Negation flips the sign and leaves the rest. -/
theorem neg_unpack_packComponents {s : Sign} {e : BitVec 11} {m : BitVec 52}
    (h : ¬isNaNBits (packComponents Format.binary64 s e m) = true) :
    (UnpackedFloat.unpack _ (packComponents Format.binary64 s e m)).neg =
      UnpackedFloat.unpack _ (packComponents Format.binary64 (-s) e m) := by
  rw [isNaNBits, decide_eq_true_iff, unpackExponent_packComponents,
    unpackMantissa_packComponents] at h
  unfold UnpackedFloat.unpack
  simp only [unpackSign_packComponents, unpackExponent_packComponents,
    unpackMantissa_packComponents, Sign.ofBitVec_toBitVec]
  split
  · rename_i he
    split
    · rfl
    · rename_i hm
      exact absurd ⟨he, hm⟩ h
  · split
    · split <;> rfl
    · rfl

theorem toNat_pack_neg_unpack {b : Bits} (h : ¬isNaNBits b = true) :
    ((UnpackedFloat.unpack _ b).neg.pack Format.binary64).toNat = (b.toNat + 2 ^ 63) % 2 ^ 64 := by
  obtain ⟨s, e, m, rfl⟩ : ∃ s e m, b = packComponents Format.binary64 s e m :=
    ⟨_, _, _, (packComponents_unpackSign_unpackExponent_unpackMantissa b).symm⟩
  have hlt : e.toNat * 2 ^ 52 + m.toNat < 2 ^ 63 := by
    have he : e.toNat < 2 ^ 11 := e.isLt
    have hm : m.toNat < 2 ^ 52 := m.isLt
    omega
  have hsign : (-s).toBitVec.toNat + s.toBitVec.toNat = 1 := by cases s <;> rfl
  have hnan : ¬isNaNBits (packComponents Format.binary64 (-s) e m) = true := by
    have hmag : ∀ t : Sign, (packComponents Format.binary64 t e m).toNat % 2 ^ 63 =
        e.toNat * 2 ^ 52 + m.toNat := by
      intro t
      rw [toNat_packComponents, Nat.add_assoc, Nat.mul_add_mod', Nat.mod_eq_of_lt hlt]
    rw [isNaNBits_iff, hmag] at h ⊢
    exact h
  rw [neg_unpack_packComponents h, pack_unpack, if_neg hnan, toNat_packComponents,
    toNat_packComponents]
  omega

theorem toNat_toBits_neg {x : Float} (h : x.isNaN = false) :
    (-x).toBits.toNat = (x.toBits.toNat + 2 ^ 63) % 2 ^ 64 := by
  let b : Bits := x.toBits.toBitVec
  have hb : ¬isNaNBits b = true := by
    rw [isNaNBits_iff]
    exact (isNaN_iff_toBits x).not.mp (ne_true_of_eq_false h)
  exact toNat_pack_neg_unpack hb

end Doubles

theorem nearestBits_le (n d : Nat) : nearestBits n d ≤ 0x7FF0000000000000 := by
  rw [nearestBits]
  split
  · exact Nat.zero_le _
  · exact Nat.min_le_right _ _

theorem toNat_toBits_nearestFloat (n d : Nat) :
    (nearestFloat n d).toBits.toNat = nearestBits n d := by
  have hle := nearestBits_le n d
  have hnat : (UInt64.ofNat (nearestBits n d)).toNat = nearestBits n d :=
    UInt64.toNat_ofNat_of_lt' (hle.trans_lt (by decide))
  rw [nearestFloat, toBits_ofBits, hnat]
  rw [hnat]
  omega

theorem isNaN_nearestFloat (n d : Nat) : (nearestFloat n d).isNaN = false := by
  rw [Bool.eq_false_iff, ne_eq, isNaN_iff_toBits, toNat_toBits_nearestFloat]
  have := nearestBits_le n d
  omega

/-- No numeral is read as anything else than a number. -/
theorem Decimal.isNaN_toFloat (d : Decimal) : d.toFloat.isNaN = false := by
  have h := isNaN_nearestFloat (natOfDigits (d.whole ++ d.fraction)) (Nat.pow 10 d.fraction.length)
  rw [toFloat]
  split
  · rw [Bool.eq_false_iff, ne_eq, isNaN_iff_toBits, toNat_toBits_neg h, toNat_toBits_nearestFloat]
    have := nearestBits_le (natOfDigits (d.whole ++ d.fraction)) (Nat.pow 10 d.fraction.length)
    omega
  · exact h

namespace Numeral

/-! ### The numeral for a double -/

theorem natOfDigits_paddedDigits (n k : Nat) : Decimal.natOfDigits (paddedDigits n k) = n := by
  have h : Decimal.natOfDigits (paddedDigits n k) = Nat.ofDigitChars 10 (paddedDigits n k) 0 := rfl
  rw [h, paddedDigits, List.leftpad, Nat.ofDigitChars_append, Nat.ofDigitChars_replicate_zero,
    Nat.mul_zero, Nat.ofDigitChars_toDigits (by decide) (by decide)]

theorem toFloat_ofScaled (negative : Bool) (n k : Nat) : (ofScaled negative n k).toFloat =
    if negative then -nearestFloat n (10 ^ k) else nearestFloat n (10 ^ k) := by
  have hdigits : (ofScaled negative n k).whole ++ (ofScaled negative n k).fraction =
      paddedDigits n k := List.take_append_drop _ _
  have hlength : (ofScaled negative n k).fraction.length = k := by
    have := lt_length_paddedDigits n k
    simp only [ofScaled, List.length_drop]
    omega
  rw [Decimal.toFloat, hdigits, hlength, natOfDigits_paddedDigits]
  rfl

theorem dvd_mul_places (n q : Nat) : 2 ^ q ∣ n * 10 ^ places n q := by
  rw [places]
  cases hk : (List.range q).find? fun k => n * 10 ^ k % 2 ^ q == 0 with
  | none =>
    have hten : (10 : Nat) ^ q = 2 ^ q * 5 ^ q := Nat.mul_pow 2 5 q
    rw [Option.getD_none, hten]
    exact ⟨n * 5 ^ q, Nat.mul_left_comm _ _ _⟩
  | some k =>
    have hmod := List.find?_some hk
    exact Nat.dvd_of_mod_eq_zero (eq_of_beq hmod)

theorem scaled_mul (n q : Nat) : scaled n q * 2 ^ q = n * 10 ^ places n q :=
  Nat.div_mul_cancel (dvd_mul_places n q)

/-- A double is nearest to what its numeral says. -/
theorem nearestBits_ofUnits {b : Nat} (h : b ≤ 0x7FF0000000000000) :
    nearestBits (scaled (unitsOfBits b) 1074) (10 ^ places (unitsOfBits b) 1074) = b := by
  have hbits : (b / 2 ^ 52 - 1) * 2 ^ 52 + (b - (b / 2 ^ 52 - 1) * 2 ^ 52) = b := by omega
  rw [nearestBits_eq (Nat.pow_pos (by decide)) (scaled_mul (unitsOfBits b) 1074)]
  · exact hbits
  · omega
  · omega
  · omega

/-- Each double that is a number is what its numeral is read as. -/
theorem toFloat_ofFloat {x : Float} (h : x.isNaN = false) : (ofFloat x).toFloat = x := by
  have hle : x.toBits.toNat % 2 ^ 63 ≤ 0x7FF0000000000000 :=
    Nat.not_lt.mp ((isNaN_iff_toBits x).not.mp (ne_true_of_eq_false h))
  have hlt : x.toBits.toNat < 2 ^ 64 := x.toBits.toNat_lt
  have hbits := (toNat_toBits_nearestFloat _ _).trans (nearestBits_ofUnits hle)
  rw [← Float.toBits_inj, ← UInt64.toNat_inj, ofFloat, ofUnits, toFloat_ofScaled]
  split
  · rename_i hnegative
    have := of_decide_eq_true hnegative
    rw [toNat_toBits_neg (isNaN_nearestFloat _ _), hbits]
    omega
  · rename_i hnegative
    have := of_decide_eq_false (Bool.eq_false_iff.mpr hnegative)
    rw [hbits]
    omega

end Numeral

end BoardTrial
