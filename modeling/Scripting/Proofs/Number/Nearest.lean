/-
# The float nearest to a whole number

A whole number becomes the float that is nearest to it, and of two that are equally near the
one with the even mantissa. Up to 53 bits there is a float for each whole number. Beyond that
the lowest bits are dropped, and the number of those that stay is rounded; floats that do not
end on so many zeros are too small to be nearer.
-/
import Mathlib
import Scripting.Proofs.Number.Fraction

namespace Scripting

open Float.Model Float.Model.UnpackedFloat

variable {n m : Nat} {e : Int} {negative : Bool} {x : Float}

/-! ### Whole numbers as floats -/

/-- The bits of a number that are not dropped, rounded. -/
def keptBits (n : Nat) : Nat := roundedQuotient .halfEven false n (2 ^ droppedBits n)

theorem keptQuotient_one (n : Nat) : keptQuotient n 1 = keptBits n := by
  rw [keptQuotient, Nat.div_one, Nat.one_mul, keptBits]

theorem accuracyOfFraction_one (n : Nat) : accuracyOfFraction (n % 1) 1 = .exact := by
  rw [Nat.mod_one]
  rfl

theorem log2_mul_two_pow (h : n ≠ 0) (j : Nat) : (n * 2 ^ j).log2 = n.log2 + j := by
  have hpos : 0 < 2 ^ j := Nat.two_pow_pos j
  refine (Nat.log2_eq_iff (Nat.mul_ne_zero h hpos.ne')).2 ⟨?_, ?_⟩
  · rw [Nat.pow_add]
    exact Nat.mul_le_mul_right _ (Nat.log2_self_le h)
  · rw [Nat.add_right_comm, Nat.pow_add]
    exact Nat.mul_lt_mul_of_pos_right Nat.lt_log2_self hpos

theorem droppedBits_shift (h : 2 ^ 52 ≤ n) (j : Nat) :
    droppedBits (n * 2 ^ j) = droppedBits n + j := by
  have hne : n ≠ 0 := by omega
  have hlog : 52 ≤ n.log2 := (Nat.le_log2 hne).2 h
  unfold droppedBits
  rw [log2_mul_two_pow hne]
  omega

theorem roundedQuotient_mul (num den : Nat) {c : Nat} (hc : 0 < c) :
    roundedQuotient .halfEven false (num * c) (den * c) = roundedQuotient .halfEven false num den := by
  have hlt : den * c < 2 * (num % den * c) ↔ den < 2 * (num % den) := by
    rw [← Nat.mul_assoc]
    exact Nat.mul_lt_mul_right hc
  have heq : 2 * (num % den * c) = den * c ↔ 2 * (num % den) = den := by
    rw [← Nat.mul_assoc]
    exact Nat.mul_left_inj hc.ne'
  unfold roundedQuotient
  simp only [Nat.mul_div_mul_right _ _ hc, Nat.mul_mod_mul_right, hlt, Bool.beq_eq_decide_eq, heq]

theorem keptBits_shift (h : 2 ^ 52 ≤ n) (j : Nat) : keptBits (n * 2 ^ j) = keptBits n := by
  unfold keptBits
  rw [droppedBits_shift h, Nat.pow_add, roundedQuotient_mul _ _ (Nat.two_pow_pos j)]

theorem exists_unpack (hx : FloatParts.of x = .finite negative m e) (hm : 0 < m) :
    ∃ sign, x.toModel.unpack = .finite sign m e hm ∧ negative = (sign == .negative) := by
  rw [FloatParts.of_eq] at hx
  cases hunpack : x.toModel.unpack with
  | notANumber | infinity =>
    rw [hunpack] at hx
    cases hx
  | zero sign =>
    rw [hunpack] at hx
    simp only [FloatParts.unpacked, FloatParts.finite.injEq] at hx
    omega
  | finite sign m' e' hpos =>
    rw [hunpack] at hx
    cases hx
    exact ⟨sign, rfl, rfl⟩

theorem mul_eq {y : Float} {s s' : Sign} {m' : Nat} {e' : Int} {hm : 0 < m} {hm' : 0 < m'}
    (hx : x.toModel.unpack = .finite s m e hm) (hy : y.toModel.unpack = .finite s' m' e' hm') :
    x * y = Float.ofModel (Float.Model.pack
      (roundWithAccuracy Format.binary64 (s * s') (m * m') (e + e') .exact)) := by
  change Float.ofModel (Float.Model.pack
    (UnpackedFloat.mul Format.binary64 x.toModel.unpack y.toModel.unpack)) = _
  rw [hx, hy]
  rfl

theorem of_mul {y : Float} {m' : Nat} {e' : Int} (hx : FloatParts.of x = .finite false m e)
    (hy : FloatParts.of y = .finite false m' e') (hm : 0 < m) (hm' : 0 < m') :
    x * y = Float.ofModel (Float.Model.pack
      (roundWithAccuracy Format.binary64 .positive (m * m') (e + e') .exact)) := by
  obtain ⟨sign, hunpack, hsign⟩ := exists_unpack hx hm
  obtain ⟨sign', hunpack', hsign'⟩ := exists_unpack hy hm'
  obtain rfl : sign = .positive := by cases sign <;> first | rfl | cases hsign
  obtain rfl : sign' = .positive := by cases sign' <;> first | rfl | cases hsign'
  exact mul_eq hunpack hunpack'

theorem droppedBits_of_lt (h : n < 2 ^ 53) : droppedBits n = 0 := by
  unfold droppedBits
  rcases Nat.eq_zero_or_pos n with rfl | hpos
  · rfl
  · have : n.log2 < 53 := (Nat.log2_lt hpos.ne').2 h
    omega

theorem keptBits_of_lt (h : n < 2 ^ 53) : keptBits n = n := by
  rw [keptBits, droppedBits_of_lt h]
  simp [roundedQuotient, Nat.mod_one]

theorem of_round_zeros (h : Normal m e) (j : Nat) :
    FloatParts.of (Float.ofModel (Float.Model.pack
      (roundWithAccuracy Format.binary64 .positive (m * 2 ^ j) (e - j) .exact))) =
        .finite false m e := by
  have hlow : 2 ^ 52 ≤ m * 2 ^ j := h.low.trans (Nat.le_mul_of_pos_right _ (Nat.two_pow_pos j))
  have hdropped : droppedBits (m * 2 ^ j) = j := by
    rw [droppedBits_shift h.low, droppedBits_of_lt h.high, Nat.zero_add]
  have hkept : keptBits (m * 2 ^ j) = m := by
    rw [keptBits_shift h.low, keptBits_of_lt h.high]
  have hround := @unpacked_round .positive (m * 2 ^ j) 1 (e - j) one_pos
  simp only [Nat.div_one, keptQuotient_one, accuracyOfFraction_one, hdropped, hkept,
    if_neg h.high.ne, Int.sub_add_cancel] at hround
  replace hround := hround hlow h.least
  exact of_pack hround h

theorem of_toFloat (hpos : 0 < n) (h : n < 2 ^ 53) :
    ∃ m e, FloatParts.of n.toUInt64.toFloat = .finite false m e ∧ Normal m e ∧
      FloatParts.magnitude m e = n := by
  have hlog : n.log2 < 53 := (Nat.log2_lt hpos.ne').2 h
  obtain ⟨zeros, hzeros⟩ : ∃ zeros, zeros + n.log2 = 52 := ⟨52 - n.log2, by omega⟩
  have hword : n.toUInt64.toNat = n := by
    rw [Nat.toUInt64_eq, UInt64.toNat_ofNat', Nat.mod_eq_of_lt (by omega)]
  have hlog' : (n * 2 ^ zeros).log2 = 52 := by
    rw [log2_mul_two_pow hpos.ne']
    omega
  have hsize := (Nat.log2_eq_iff (Nat.mul_ne_zero hpos.ne' (Nat.two_pow_pos _).ne')).1 hlog'
  have hnormal : Normal (n * 2 ^ zeros) (-zeros) := ⟨hsize.1, hsize.2, by omega, by omega⟩
  have hround : UnpackedFloat.ofUInt64 Format.binary64 n.toUInt64 =
      roundWithAccuracy Format.binary64 .positive (n * 2 ^ zeros) (-zeros) .exact := by
    have hgt : compare (n : Int) 0 = .gt := Int.compare_eq_gt.2 (by omega)
    have hshift : (0 - Format.binary64.targetExponent (totalExponent n 0)).toNat = zeros := by
      rw [targetExponent_eq, totalExponent]
      omega
    rw [UnpackedFloat.ofUInt64, UnpackedFloat.ofNat, UnpackedFloat.ofInt, hword,
      UnpackedFloat.normalize, hgt]
    dsimp only
    rw [Int.toNat_natCast, UnpackedFloat.round]
    dsimp only [decreaseExponent]
    rw [hshift, Nat.shiftLeft_eq, Int.zero_sub]
  refine ⟨n * 2 ^ zeros, -zeros, ?_, hnormal, ?_⟩
  · have := of_round_zeros hnormal 0
    rw [Nat.pow_zero, Nat.mul_one, Nat.cast_zero, Int.sub_zero, ← hround] at this
    exact this
  · rw [FloatParts.magnitude, Nat.cast_mul, Nat.cast_pow, Nat.cast_ofNat, zpow_neg, zpow_natCast,
      mul_assoc, mul_inv_cancel₀ (by positivity), mul_one]

/-- The float of a whole number has its kept bits, and as many zeros as bits were dropped. -/
theorem of_ofNat (hpos : 0 < n) (h : n < 2 ^ 64) :
    ∃ m e, FloatParts.of (Float.ofNat n) = .finite false m e ∧ Normal m e ∧
      FloatParts.magnitude m e = keptBits n * 2 ^ droppedBits n ∧
      (0 < droppedBits n → keptBits n % 2 = 0 → m % 2 = 0) := by
  by_cases hsmall : n < 2 ^ 53
  · obtain ⟨m, e, hof, hnormal, hmagnitude⟩ := of_toFloat hpos hsmall
    have hone : FloatParts.of (Float.ofBits 0x3FF0000000000000) = .finite false (2 ^ 52) (-52) := rfl
    have hfloat : Float.ofNat n = n.toUInt64.toFloat * Float.ofBits 0x3FF0000000000000 := by
      change Float.ofScientific n false 0 = _
      rw [Float.ofScientific, dif_pos ⟨hsmall, by decide⟩]
      rfl
    refine ⟨m, e, ?_, hnormal, ?_, fun hnone => ?_⟩
    · rw [hfloat, of_mul hof hone hnormal.pos (by norm_num)]
      exact of_round_zeros hnormal 52
    · rw [hmagnitude, keptBits_of_lt hsmall, droppedBits_of_lt hsmall, pow_zero, mul_one]
    · exact absurd (droppedBits_of_lt hsmall) hnone.ne'
  have hlow : 2 ^ 52 ≤ n := by omega
  have hlog : n.log2 < 64 := (Nat.log2_lt hpos.ne').2 h
  have hdropped : (-53 : Int) + droppedBits (n * 2 ^ 53) = droppedBits n := by
    rw [droppedBits_shift hlow]
    omega
  have hbits : droppedBits n < 64 := (Nat.sub_le _ _).trans_lt hlog
  have hfloat : Float.ofNat n = Float.ofModel (Float.Model.pack
      (roundWithAccuracy Format.binary64 .positive (n * 2 ^ 53) (-53) .exact)) := by
    change Float.ofScientific n false 0 = _
    rw [Float.ofScientific, dif_neg (fun hfast => hsmall hfast.1)]
    change Float.ofModel (Float.Model.pack (UnpackedFloat.ofScientific Format.binary64 n 0)) = _
    rw [UnpackedFloat.ofScientific, dif_neg hpos.ne', if_neg (by decide),
      if_neg (show ¬ (0 : Int) < -(2 ^ 11 + (n.log2 : Int)) by omega), if_pos le_rfl]
    change Float.ofModel (Float.Model.pack
      (roundWithAccuracy Format.binary64 .positive (n <<< 53 * 1) (-53) .exact)) = _
    rw [Nat.mul_one, Nat.shiftLeft_eq]
  have hround := @of_round .positive (n * 2 ^ 53) 1 (-53) one_pos
  simp only [Nat.div_one, keptQuotient_one, accuracyOfFraction_one, keptBits_shift hlow, hdropped,
    zpow_natCast] at hround
  obtain ⟨m, e, hof, hnormal, hmagnitude, heven⟩ := hround (by omega) (by omega) (by omega)
  exact ⟨m, e, hfloat ▸ hof, hnormal, hmagnitude, fun _ => heven⟩

/-! ### The nearest float -/

namespace FloatParts

theorem signed_not (negative : Bool) (p : ℚ) : signed (!negative) p = -signed negative p := by
  cases negative <;> simp [signed]

theorem number_eq_of_iff {parts : FloatParts} {p : ℚ} :
    parts.number? = some (.of p) ↔
      ∃ negative m e, parts = .finite negative m e ∧ p = signed negative (magnitude m e) := by
  constructor
  · intro h
    cases parts with
    | nan => cases h
    | infinite negative => cases negative <;> cases h
    | finite negative m e =>
      exact ⟨negative, m, e, rfl, (ExtendedRat.of_inj.1 (Option.some.inj h)).symm⟩
  · rintro ⟨negative, m, e, rfl, rfl⟩
    rfl

/-- A float below a power of two is small; any other one ends on as many zeros. -/
theorem small_or_multiple (h : (finite negative m e).Canonical) (zeros : Nat) :
    signed negative (magnitude m e) < 2 ^ 52 * 2 ^ zeros ∨
      ∃ t : Nat, signed negative (magnitude m e) = t * 2 ^ zeros ∧ (t % 2 = 1 → m % 2 = 1) := by
  cases negative with
  | true =>
    left
    exact (neg_nonpos.2 (magnitude_nonneg m e)).trans_lt (by positivity)
  | false =>
    by_cases hlt : e < zeros
    · left
      have hpower : (finite false (2 ^ 52) zeros).Canonical :=
        ⟨by norm_num, by omega, .inl le_rfl⟩
      have hvalue : magnitude (2 ^ 52) zeros = 2 ^ 52 * 2 ^ zeros := by
        rw [magnitude, zpow_natCast, Nat.cast_pow, Nat.cast_ofNat]
      rw [← hvalue]
      exact magnitude_lt_of_exponent_lt h hpower hlt
    right
    obtain ⟨j, hj⟩ : ∃ j : Nat, e = j + zeros := ⟨(e - zeros).toNat, by omega⟩
    refine ⟨m * 2 ^ j, ?_, fun hodd => ?_⟩
    · change magnitude m e = _
      rw [magnitude, hj, zpow_add₀ (by norm_num), zpow_natCast, zpow_natCast]
      push_cast
      ring
    rw [Nat.mul_mod] at hodd
    rcases Nat.mod_two_eq_zero_or_one m with heven | hodd'
    · simp [heven] at hodd
    · exact hodd'

end FloatParts

open FloatParts

theorem keptBits_nearest_multiple (n t : Nat) :
    |(n : ℚ) - keptBits n * 2 ^ droppedBits n| ≤ |(n : ℚ) - t * 2 ^ droppedBits n| ∧
      (|(n : ℚ) - keptBits n * 2 ^ droppedBits n| = |(n : ℚ) - t * 2 ^ droppedBits n| →
        t ≠ keptBits n → keptBits n % 2 = 0 ∧ t % 2 = 1) := by
  obtain ⟨hle, htie⟩ := roundedQuotient_nearest n (Nat.two_pow_pos (droppedBits n)) t
  rw [← keptBits] at hle htie
  refine ⟨by exact_mod_cast hle, fun heq hne => ?_⟩
  have := htie (by exact_mod_cast heq) (by exact_mod_cast hne)
  omega

/-- No float is nearer than the kept bits, and one that is as near has an odd mantissa. -/
theorem keptBits_nearest (h : (finite negative m e).Canonical) :
    |(n : ℚ) - keptBits n * 2 ^ droppedBits n| ≤ |(n : ℚ) - signed negative (magnitude m e)| ∧
      (|(n : ℚ) - keptBits n * 2 ^ droppedBits n| = |(n : ℚ) - signed negative (magnitude m e)| →
        signed negative (magnitude m e) ≠ keptBits n * 2 ^ droppedBits n →
        0 < droppedBits n ∧ keptBits n % 2 = 0 ∧ m % 2 = 1) := by
  generalize hq : signed negative (magnitude m e) = q
  by_cases hsmall : n < 2 ^ 53
  · rw [keptBits_of_lt hsmall, droppedBits_of_lt hsmall, pow_zero, mul_one, sub_self, abs_zero]
    refine ⟨abs_nonneg _, fun heq hne => absurd ?_ hne⟩
    exact (sub_eq_zero.1 (abs_eq_zero.1 heq.symm)).symm
  have hne : n ≠ 0 := by omega
  have hlog : 53 ≤ n.log2 := (Nat.le_log2 hne).2 (by omega)
  have hdropped : 0 < droppedBits n := Nat.sub_pos_of_lt (by omega)
  have hlead : 2 ^ 52 * 2 ^ droppedBits n ≤ n := by
    rw [← Nat.pow_add, droppedBits, Nat.add_sub_cancel' (by omega)]
    exact Nat.log2_self_le hne
  rcases small_or_multiple h (droppedBits n) with hlow | ⟨t, ht, hodd⟩
  · -- the leading bit alone would be nearer
    rw [hq] at hlow
    have hlead' : (2 ^ 52 * 2 ^ droppedBits n : ℚ) ≤ n := by exact_mod_cast hlead
    have hlt : |(n : ℚ) - keptBits n * 2 ^ droppedBits n| < |(n : ℚ) - q| := by
      calc |(n : ℚ) - keptBits n * 2 ^ droppedBits n|
          ≤ |(n : ℚ) - (2 ^ 52 : Nat) * 2 ^ droppedBits n| :=
            (keptBits_nearest_multiple n (2 ^ 52)).1
        _ = n - 2 ^ 52 * 2 ^ droppedBits n := by
            push_cast
            exact abs_of_nonneg (sub_nonneg.2 hlead')
        _ < n - q := sub_lt_sub_left hlow _
        _ ≤ |(n : ℚ) - q| := le_abs_self _
    exact ⟨hlt.le, fun heq => absurd heq hlt.ne⟩
  rw [hq] at ht
  obtain ⟨hle, htie⟩ := keptBits_nearest_multiple n t
  rw [ht]
  refine ⟨hle, fun heq hother => ⟨hdropped, ?_⟩⟩
  have := htie heq (by rintro rfl; exact hother rfl)
  exact ⟨this.1, hodd this.2⟩

/-- A rational number that is the exact number of a float. -/
def IsFloat (p : ℚ) : Prop := ∃ x : Float, (FloatParts.of x).number? = some (.of p)

/-- A rational number that is the exact number of a float with an even mantissa. -/
def IsEvenFloat (p : ℚ) : Prop :=
  ∃ x negative m e, FloatParts.of x = .finite negative m e ∧ m % 2 = 0 ∧
    p = signed negative (magnitude m e)

/-- The float nearest to a whole number; of two that are equally near, the one with the even
mantissa. -/
structure RoundsTo (n : Int) (p : ℚ) : Prop where
  isFloat : IsFloat p
  near {q : ℚ} : IsFloat q → |n - p| ≤ |n - q|
  even {q : ℚ} : IsFloat q → |n - p| = |n - q| → q ≠ p → IsEvenFloat p

theorem of_neg (hx : FloatParts.of x = .finite negative m e) (h : Normal m e) :
    FloatParts.of (Float.neg x) = .finite (!negative) m e := by
  obtain ⟨sign, hunpack, rfl⟩ := exists_unpack hx h.pos
  change FloatParts.of (Float.ofModel (Float.Model.pack x.toModel.unpack.neg)) = _
  rw [hunpack]
  cases sign <;> exact of_pack rfl h

/-- The number that a whole number is rounded to. -/
def rounded (n : Int) : ℚ :=
  signed (decide (n < 0)) (keptBits n.natAbs * 2 ^ droppedBits n.natAbs)

theorem of_floatOfInt {n : Int} (hn : n ≠ 0) (h : n.natAbs < 2 ^ 64) :
    ∃ m e, FloatParts.of (floatOfInt n) = .finite (decide (n < 0)) m e ∧ Normal m e ∧
      magnitude m e = keptBits n.natAbs * 2 ^ droppedBits n.natAbs ∧
      (0 < droppedBits n.natAbs → keptBits n.natAbs % 2 = 0 → m % 2 = 0) := by
  obtain ⟨m, e, hof, hnormal, hmagnitude, heven⟩ := of_ofNat (Int.natAbs_pos.2 hn) h
  refine ⟨m, e, ?_, hnormal, hmagnitude, heven⟩
  cases n with
  | ofNat n => exact hof
  | negSucc n =>
    rw [decide_eq_true (Int.negSucc_lt_zero n)]
    exact of_neg hof hnormal

theorem rounded_nearest {n : Int} (h : (finite negative m e).Canonical) :
    |n - rounded n| ≤ |n - signed negative (magnitude m e)| ∧
      (|n - rounded n| = |n - signed negative (magnitude m e)| →
        signed negative (magnitude m e) ≠ rounded n →
        0 < droppedBits n.natAbs ∧ keptBits n.natAbs % 2 = 0 ∧ m % 2 = 1) := by
  rcases Int.natAbs_eq n with hn | hn
  · have hrounded : rounded n = keptBits n.natAbs * 2 ^ droppedBits n.natAbs := by
      rw [rounded, decide_eq_false (by omega)]
      rfl
    have hcast : (n : ℚ) = n.natAbs := (congrArg Int.cast hn).trans (Int.cast_natCast _)
    rw [hrounded, hcast]
    exact keptBits_nearest h
  -- below zero the mirror image of the float is as near to the mirror image of the number
  have hcast : (n : ℚ) = -n.natAbs := by
    rw [← Int.cast_natCast, ← Int.cast_neg, ← hn]
  have hmirror (p : ℚ) : |(n : ℚ) - p| = |(n.natAbs : ℚ) - -p| := by
    rw [hcast, ← abs_neg]
    ring_nf
  have hrounded : -rounded n = keptBits n.natAbs * 2 ^ droppedBits n.natAbs := by
    by_cases hneg : n < 0
    · rw [rounded, decide_eq_true hneg]
      exact neg_neg _
    · obtain rfl : n = 0 := by omega
      decide +kernel
  have h' : (finite (!negative) m e).Canonical := h
  rw [hmirror, hmirror, hrounded, ← signed_not, ← neg_inj.ne, hrounded, ← signed_not]
  exact keptBits_nearest h'

theorem number_floatOfInt {n : Int} (h : n.natAbs < 2 ^ 64) :
    (FloatParts.of (floatOfInt n)).number? = some (.of (rounded n)) := by
  rcases eq_or_ne n 0 with rfl | hn
  · refine number_eq_of_iff.2 ⟨false, 0, -1074, rfl, ?_⟩
    simp [rounded, signed, magnitude, keptBits_of_lt]
  · obtain ⟨m, e, hof, -, hmagnitude, -⟩ := of_floatOfInt hn h
    exact number_eq_of_iff.2 ⟨_, m, e, hof, by rw [hmagnitude, rounded]⟩

/-- A whole number becomes the float that is nearest to it. -/
theorem floatOfInt_roundsTo {n : Int} (h : n.natAbs < 2 ^ 64) : RoundsTo n (rounded n) where
  isFloat := ⟨_, number_floatOfInt h⟩
  near := by
    rintro q ⟨y, hy⟩
    obtain ⟨negative, m, e, hof, rfl⟩ := number_eq_of_iff.1 hy
    exact (rounded_nearest (hof ▸ of_canonical y)).1
  even := by
    rintro q ⟨y, hy⟩ htie hne
    obtain ⟨negative, m, e, hof, rfl⟩ := number_eq_of_iff.1 hy
    obtain ⟨hdropped, heven, -⟩ := (rounded_nearest (hof ▸ of_canonical y)).2 htie hne
    have hn : n ≠ 0 := by
      rintro rfl
      cases hdropped
    obtain ⟨m', e', hof', -, hmagnitude', heven'⟩ := of_floatOfInt hn h
    exact ⟨_, _, m', e', hof', heven' hdropped heven, by rw [hmagnitude', rounded]⟩

/-- There is only one nearest float. -/
theorem RoundsTo.eq_rounded {n : Int} (hn : n.natAbs < 2 ^ 64) {p : ℚ} (h : RoundsTo n p) :
    p = rounded n := by
  by_contra hne
  have hrounded := floatOfInt_roundsTo hn
  have htie : |n - p| = |n - rounded n| :=
    le_antisymm (h.near hrounded.isFloat) (hrounded.near h.isFloat)
  obtain ⟨x, negative, m, e, hof, heven, rfl⟩ := h.even hrounded.isFloat htie (Ne.symm hne)
  obtain ⟨-, -, hodd⟩ := (rounded_nearest (hof ▸ of_canonical x)).2 htie.symm hne
  omega

theorem rounded_of_small {n : Int} (h : n.natAbs ≤ 2 ^ 53) : rounded n = n := by
  have hkept : keptBits n.natAbs * 2 ^ droppedBits n.natAbs = n.natAbs := by
    rcases h.lt_or_eq with hlt | heq
    · rw [keptBits_of_lt hlt, droppedBits_of_lt hlt, Nat.pow_zero, Nat.mul_one]
    · rw [heq]
      decide +kernel
  have hkept' : (keptBits n.natAbs * 2 ^ droppedBits n.natAbs : ℚ) = n.natAbs := by
    exact_mod_cast hkept
  rw [rounded, hkept']
  by_cases hneg : n < 0
  · rw [decide_eq_true hneg]
    change -(n.natAbs : ℚ) = n
    rw [← Int.cast_natCast, ← Int.cast_neg, Int.ofNat_natAbs_of_nonpos hneg.le, neg_neg]
  · rw [decide_eq_false hneg]
    change (n.natAbs : ℚ) = n
    rw [← Int.cast_natCast, Int.natAbs_of_nonneg (not_lt.1 hneg)]

end Scripting
