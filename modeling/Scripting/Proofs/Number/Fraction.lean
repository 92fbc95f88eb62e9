/-
# Rounding a fraction to 53 bits

A product or a quotient of floats is a fraction of whole numbers times a power of two. Rounding
shifts its whole part to the right until 53 bits are left, and keeps two bits of what is dropped:
whether it is a half at least, and whether it is something else than nothing or a half. This is
all that it takes to round the fraction itself, however far it was shifted.
-/
import Mathlib
import Scripting.Proofs.Number.Exact

namespace Scripting

open Float.Model Float.Model.UnpackedFloat

/-! ### Rounding a quotient -/

/-- The rounded quotient is off by half of the divisor at most, and by no less only if it is
even. -/
theorem roundedQuotient_near (num : Nat) {den : Nat} (hden : 0 < den) :
    2 * |(num : Int) - roundedQuotient .halfEven false num den * den| ≤ den ∧
      (2 * |(num : Int) - roundedQuotient .halfEven false num den * den| = den →
        roundedQuotient .halfEven false num den % 2 = 0) := by
  have hrest : num % den < den := Nat.mod_lt _ hden
  have hnum : (num : Int) = (num / den : Nat) * den + (num % den : Nat) := by
    rw [← Nat.cast_mul, ← Nat.cast_add, Nat.div_add_mod']
  unfold roundedQuotient
  dsimp only
  split
  next hup =>
    have hoff : (num : Int) - (num / den + 1 : Nat) * den = -(den - (num % den : Nat)) := by
      rw [Nat.cast_succ, add_mul, hnum]
      ring
    rw [hoff, abs_neg, abs_of_nonneg (by omega), Nat.succ_mod_two_eq_zero_iff]
    simp only [Bool.or_eq_true, Bool.and_eq_true, beq_iff_eq, decide_eq_true_eq] at hup
    rcases hup with hmore | ⟨hhalf, hodd⟩
    · exact ⟨by omega, fun heq => absurd heq (by omega)⟩
    · exact ⟨by omega, fun _ => hodd⟩
  next hdown =>
    have hoff : (num : Int) - (num / den : Nat) * den = (num % den : Nat) := by
      rw [hnum]
      ring
    rw [hoff, abs_of_nonneg (by omega)]
    simp only [Bool.or_eq_true, Bool.and_eq_true, beq_iff_eq, decide_eq_true_eq, not_or,
      not_and, Nat.mod_two_not_eq_one] at hdown
    exact ⟨by omega, fun heq => hdown.2 (by omega)⟩

/-- No multiple of the divisor is nearer, and one that is as near is the odd one of the two. -/
theorem roundedQuotient_nearest (num : Nat) {den : Nat} (hden : 0 < den) (other : Int) :
    |(num : Int) - roundedQuotient .halfEven false num den * den| ≤ |(num : Int) - other * den| ∧
      (|(num : Int) - roundedQuotient .halfEven false num den * den| = |(num : Int) - other * den| →
        other ≠ roundedQuotient .halfEven false num den →
        roundedQuotient .halfEven false num den % 2 = 0 ∧ other % 2 = 1) := by
  obtain ⟨hnear, heven⟩ := roundedQuotient_near num hden
  generalize roundedQuotient .halfEven false num den = quotient at *
  have hcancel {a b : Int} (h : a * den = b * den) : a = b :=
    mul_right_cancel₀ (by exact_mod_cast hden.ne') h
  have hup := le_abs_self ((num : Int) - quotient * den)
  have hdown := neg_abs_le ((num : Int) - quotient * den)
  rcases lt_trichotomy other quotient with hless | rfl | hmore
  · have hstep : other * den ≤ (quotient - 1) * den :=
      mul_le_mul_of_nonneg_right (by omega) (by omega)
    rw [sub_mul, one_mul] at hstep
    have hfar : |(num : Int) - other * den| = num - other * den := abs_of_nonneg (by omega)
    rw [hfar]
    refine ⟨by omega, fun htie _ => ?_⟩
    have hnext : other = quotient - 1 := hcancel (by rw [sub_mul, one_mul]; omega)
    have := heven (by omega)
    omega
  · exact ⟨le_rfl, fun _ h => absurd rfl h⟩
  have hstep : ((quotient : Int) + 1) * den ≤ other * den :=
    mul_le_mul_of_nonneg_right (by omega) (by omega)
  rw [add_mul, one_mul] at hstep
  have hfar : |(num : Int) - other * den| = -(num - other * den) := abs_of_nonpos (by omega)
  rw [hfar]
  refine ⟨by omega, fun htie _ => ?_⟩
  have hnext : other = quotient + 1 := hcancel (by rw [add_mul, one_mul]; omega)
  have := heven (by omega)
  omega

/-- A quotient with the two bits that rounding takes from the remainder. -/
def extendedQuotient (num den : Nat) : ExtendedMantissa where
  mantissa := num / den
  roundBit := den ≤ 2 * (num % den)
  stickyBit := num % den ≠ 0 ∧ 2 * (num % den) ≠ den

theorem extendedQuotient_of_fraction (num : Nat) {den : Nat} (hden : 0 < den) :
    ExtendedMantissa.ofMantissaAndAccuracy (num / den) (accuracyOfFraction (num % den) den) =
      extendedQuotient num den := by
  unfold accuracyOfFraction extendedQuotient
  split
  next hzero => simp [hzero, hden.ne', ExtendedMantissa.ofMantissaAndAccuracy]
  next hrest =>
    rcases lt_trichotomy (2 * (num % den)) den with hlt | heq | hgt
    · rw [Nat.compare_eq_lt.2 hlt]
      simp [ExtendedMantissa.ofMantissaAndAccuracy, hrest, hlt, hlt.ne]
    · rw [Nat.compare_eq_eq.2 heq]
      simp [ExtendedMantissa.ofMantissaAndAccuracy, heq]
    · rw [Nat.compare_eq_gt.2 hgt]
      simp [ExtendedMantissa.ofMantissaAndAccuracy, hrest, hgt.le, hgt.ne']

theorem shiftRightOne_extendedQuotient (num : Nat) {den : Nat} (hden : 0 < den) :
    (extendedQuotient num den).shiftRightOne = extendedQuotient num (den * 2) := by
  have hmod : num % (den * 2) = num % den + den * (num / den % 2) := Nat.mod_mul
  have hrest : num % den < den := Nat.mod_lt _ hden
  have hbit : num / den % 2 = 0 ∨ num / den % 2 = 1 := Nat.mod_two_eq_zero_or_one _
  simp only [extendedQuotient, ExtendedMantissa.shiftRightOne, Nat.div_div_eq_div_mul, hmod,
    ExtendedMantissa.mk.injEq, true_and]
  rcases hbit with hbit | hbit <;> simp [hbit] <;> grind

theorem extendedQuotient_shift (num : Nat) {den : Nat} (hden : 0 < den) (k : Nat) :
    extendedQuotient num den >>> k = extendedQuotient num (den * 2 ^ k) := by
  change Nat.repeat ExtendedMantissa.shiftRightOne k (extendedQuotient num den) = _
  induction k with
  | zero => rw [Nat.pow_zero, Nat.mul_one, Nat.repeat]
  | succ k ih =>
    rw [Nat.repeat, ih, shiftRightOne_extendedQuotient _ (Nat.mul_pos hden (Nat.two_pow_pos k)),
      Nat.pow_succ, Nat.mul_assoc]

theorem roundedMantissa_extendedQuotient (num : Nat) {den : Nat} (hden : 0 < den) :
    (extendedQuotient num den).roundedMantissa = roundedQuotient .halfEven false num den := by
  unfold extendedQuotient roundedQuotient ExtendedMantissa.roundedMantissa
  rcases lt_trichotomy (2 * (num % den)) den with hlt | heq | hgt
  · by_cases hrest : num % den = 0 <;>
      simp [hrest, hden.ne, hden.ne', hlt.not_ge, hlt.not_gt, hlt.ne, ExtendedMantissa.accuracy,
        Accuracy.roundToNearestEven]
  · rcases Nat.mod_two_eq_zero_or_one (num / den) with hbit | hbit <;>
      simp [heq, hbit, ExtendedMantissa.accuracy, Accuracy.roundToNearestEven]
  · have hrest : num % den ≠ 0 := by omega
    simp [hrest, hgt, hgt.le, hgt.ne', ExtendedMantissa.accuracy, Accuracy.roundToNearestEven]

/-! ### 53 bits -/

/-- How many of its lowest bits a number has to lose. -/
def droppedBits (n : Nat) : Nat := n.log2 - 52

/-- What is kept of a fraction, rounded. -/
def keptQuotient (num den : Nat) : Nat :=
  roundedQuotient .halfEven false num (den * 2 ^ droppedBits (num / den))

theorem roundedQuotient_mem (num den : Nat) :
    num / den ≤ roundedQuotient .halfEven false num den ∧
      roundedQuotient .halfEven false num den ≤ num / den + 1 := by
  unfold roundedQuotient
  dsimp only
  split
  · exact ⟨Nat.le_succ _, le_rfl⟩
  · exact ⟨le_rfl, Nat.le_succ _⟩

theorem div_droppedBits_mem {n : Nat} (h : 2 ^ 52 ≤ n) :
    2 ^ 52 ≤ n / 2 ^ droppedBits n ∧ n / 2 ^ droppedBits n < 2 ^ 53 := by
  have hne : n ≠ 0 := by omega
  have hlog : 52 ≤ n.log2 := (Nat.le_log2 hne).2 h
  have hsplit : n.log2 = 52 + droppedBits n := by
    unfold droppedBits
    omega
  constructor
  · rw [Nat.le_div_iff_mul_le (Nat.two_pow_pos _), ← Nat.pow_add, ← hsplit]
    exact Nat.log2_self_le hne
  · rw [Nat.div_lt_iff_lt_mul (Nat.two_pow_pos _), ← Nat.pow_add,
      show 53 + droppedBits n = n.log2 + 1 by omega]
    exact Nat.lt_log2_self

theorem keptQuotient_mem {num den : Nat} (h : 2 ^ 52 ≤ num / den) :
    2 ^ 52 ≤ keptQuotient num den ∧ keptQuotient num den ≤ 2 ^ 53 := by
  have hkept := roundedQuotient_mem num (den * 2 ^ droppedBits (num / den))
  obtain ⟨hlow, hhigh⟩ := div_droppedBits_mem h
  rw [← keptQuotient, ← Nat.div_div_eq_div_mul] at hkept
  omega

theorem targetExponent_eq (total : Int) :
    Format.binary64.targetExponent total = max (total - 53) (-1074) := rfl

/-- A fraction of 53 bits or more loses bits as needed; if this makes one more bit, then it loses
that one, too. -/
theorem unpacked_round {sign : Sign} {num den : Nat} {e : Int} (hden : 0 < den)
    (hquotient : 2 ^ 52 ≤ num / den) (he : -1074 ≤ e + droppedBits (num / den)) :
    FloatParts.unpacked (roundWithAccuracy Format.binary64 sign (num / den) e
        (accuracyOfFraction (num % den) den)) =
      if keptQuotient num den = 2 ^ 53 then
        .finite (sign == .negative) (2 ^ 52) (e + droppedBits (num / den) + 1)
      else .finite (sign == .negative) (keptQuotient num den) (e + droppedBits (num / den)) := by
  have hlog : 52 ≤ (num / den).log2 := (Nat.le_log2 (by omega)).2 hquotient
  have hdropped : (droppedBits (num / den) : Int) = (num / den).log2 - 52 := by
    unfold droppedBits
    omega
  have hshift : (Format.binary64.targetExponent (totalExponent (num / den) e) - e).toNat =
      droppedBits (num / den) := by
    rw [targetExponent_eq, totalExponent]
    omega
  have hfirst : shiftToTargetExponent Format.binary64 (num / den) e
      (accuracyOfFraction (num % den) den) =
        (extendedQuotient num (den * 2 ^ droppedBits (num / den)), e + droppedBits (num / den)) := by
    rw [shiftToTargetExponent, shiftToExponent, hshift, extendedQuotient_of_fraction _ hden,
      extendedQuotient_shift _ hden]
  obtain ⟨hlow, hhigh⟩ := keptQuotient_mem hquotient
  rw [roundWithAccuracy, hfirst]
  dsimp only
  rw [roundedMantissa_extendedQuotient _ (Nat.mul_pos hden (Nat.two_pow_pos _)), ← keptQuotient]
  generalize e + droppedBits (num / den) = e' at *
  by_cases htop : keptQuotient num den = 2 ^ 53
  · have hagain : shiftToTargetExponent Format.binary64 (2 ^ 53) e' .exact =
        (⟨2 ^ 52, false, false⟩, e' + 1) := by
      have hone : (Format.binary64.targetExponent (totalExponent (2 ^ 53) e') - e').toNat = 1 := by
        rw [targetExponent_eq, totalExponent, Nat.log2_two_pow]
        omega
      rw [shiftToTargetExponent, shiftToExponent, hone]
      rfl
    rw [htop, hagain, if_pos rfl]
    rfl
  have hlog : (keptQuotient num den).log2 = 52 := (Nat.log2_eq_iff (by omega)).2 ⟨hlow, by omega⟩
  have hagain : shiftToTargetExponent Format.binary64 (keptQuotient num den) e' .exact =
      (⟨keptQuotient num den, false, false⟩, e') := by
    have hnone : (Format.binary64.targetExponent
        (totalExponent (keptQuotient num den) e') - e').toNat = 0 := by
      rw [targetExponent_eq, totalExponent, hlog]
      omega
    rw [shiftToTargetExponent, shiftToExponent, hnone]
    simp [ExtendedMantissa.ofMantissaAndAccuracy, HShiftRight.hShiftRight, Nat.repeat]
  rw [hagain, dif_neg (show ¬ keptQuotient num den = 0 by omega), if_neg htop]
  rfl

/-! ### Packing -/

theorem unpackSign_packComponents {spec : Format} {sign : Sign} {exponent : BitVec spec.exponentBits}
    {mantissa : BitVec spec.mantissaBitsWithoutImplicit} :
    unpackSign (packComponents spec sign exponent mantissa) = sign.toBitVec := by
  ext i hi
  obtain rfl : i = 0 := by omega
  simp [unpackSign, packComponents, BitVec.getLsbD_append, BitVec.getElem_append]

/-- A mantissa of 53 bits with an exponent that a float has room for. -/
structure Normal (m : Nat) (e : Int) : Prop where
  low : 2 ^ 52 ≤ m
  high : m < 2 ^ 53
  least : -1074 ≤ e
  most : e ≤ 971

theorem Normal.pos {m : Nat} {e : Int} (h : Normal m e) : 0 < m :=
  lt_of_lt_of_le (by norm_num) h.low

theorem unpack_pack {sign : Sign} {m : Nat} {e : Int} (h : Normal m e) (hpos : 0 < m) :
    (Float.Model.pack (.finite sign m e hpos)).unpack = .finite sign m e hpos := by
  obtain ⟨hlow, hhigh, he, he'⟩ := h
  have hlog : m.log2 + 1 = Format.binary64.mantissaBits :=
    congrArg (· + 1) ((Nat.log2_eq_iff hpos.ne').2 ⟨hlow, hhigh⟩)
  obtain ⟨biased, hbiased⟩ : ∃ biased : Nat, (biased : Int) = e + 1075 := ⟨(e + 1075).toNat, by omega⟩
  have hexponent : (e + Format.binary64.exponentBias +
      Format.binary64.mantissaBitsWithoutImplicit).toNat = biased := by
    change (e + 1023 + 52).toNat = biased
    omega
  have hfits : ¬ 2 ^ Format.binary64.exponentBits ≤ biased + 1 := by
    change ¬ 2048 ≤ biased + 1
    omega
  have hread : (BitVec.ofNat 11 biased).toNat = biased := by
    rw [BitVec.toNat_ofNat, Nat.mod_eq_of_lt (by omega)]
  have hmantissa : (1#1 ++ BitVec.ofNat 52 m).toNat = m := by
    rw [BitVec.toNat_append, ← Nat.shiftLeft_add_eq_or_of_lt (BitVec.isLt _), BitVec.toNat_ofNat]
    change 2 ^ 52 + m % 2 ^ 52 = m
    omega
  have hlast : ¬ BitVec.ofNat 11 biased = -1#11 := by
    rw [← BitVec.toNat_inj, hread]
    change ¬ biased = 2047
    omega
  have hfirst : ¬ BitVec.ofNat 11 biased = 0#11 := by
    rw [← BitVec.toNat_inj, hread]
    change ¬ biased = 0
    omega
  unfold Float.Model.unpack Float.Model.pack UnpackedFloat.pack
  dsimp only
  rw [hexponent, if_neg hfits, if_pos hlog]
  unfold UnpackedFloat.unpack
  simp only [unpackMantissa_packComponents, unpackExponent_packComponents,
    unpackSign_packComponents]
  rw [if_neg hlast, if_neg hfirst]
  have hsign : Sign.ofBitVec sign.toBitVec = sign := by cases sign <;> rfl
  have hback : (biased : Int) - (Format.binary64.exponentBias + (52 : Nat)) = e := by
    change (biased : Int) - (1023 + 52) = e
    omega
  simp only [hsign, hread, hmantissa, hback]

theorem of_pack {a : UnpackedFloat} {negative : Bool} {m : Nat} {e : Int}
    (ha : FloatParts.unpacked a = .finite negative m e) (h : Normal m e) :
    FloatParts.of (Float.ofModel (Float.Model.pack a)) = .finite negative m e := by
  cases a with
  | notANumber | infinity => cases ha
  | zero sign =>
    simp only [FloatParts.unpacked, FloatParts.finite.injEq] at ha
    have := h.pos
    omega
  | finite sign m' e' hpos =>
    cases ha
    rw [FloatParts.of_eq]
    exact congrArg FloatParts.unpacked (unpack_pack h hpos)

theorem of_round {sign : Sign} {num den : Nat} {e : Int} (hden : 0 < den)
    (hquotient : 2 ^ 52 ≤ num / den) (he : -1074 ≤ e + droppedBits (num / den))
    (he' : e + droppedBits (num / den) < 971) :
    ∃ m' e', FloatParts.of (Float.ofModel (Float.Model.pack
        (roundWithAccuracy Format.binary64 sign (num / den) e
          (accuracyOfFraction (num % den) den)))) = .finite (sign == .negative) m' e' ∧
      Normal m' e' ∧
      FloatParts.magnitude m' e' = keptQuotient num den * 2 ^ (e + droppedBits (num / den)) ∧
      (keptQuotient num den % 2 = 0 → m' % 2 = 0) := by
  have hround := @unpacked_round sign num den e hden hquotient he
  obtain ⟨hlow, hhigh⟩ := keptQuotient_mem hquotient
  by_cases htop : keptQuotient num den = 2 ^ 53
  · rw [if_pos htop] at hround
    have hnormal : Normal (2 ^ 52) (e + droppedBits (num / den) + 1) :=
      ⟨le_rfl, by norm_num, by omega, by omega⟩
    refine ⟨_, _, of_pack hround hnormal, hnormal, ?_, fun _ => rfl⟩
    rw [FloatParts.magnitude, htop, zpow_add_one₀ (by norm_num)]
    push_cast
    ring
  rw [if_neg htop] at hround
  have hnormal : Normal (keptQuotient num den) (e + droppedBits (num / den)) :=
    ⟨hlow, by omega, he, by omega⟩
  exact ⟨_, _, of_pack hround hnormal, hnormal, rfl, id⟩

end Scripting
