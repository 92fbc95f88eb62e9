/-
# Floats and whole numbers

A float without its fraction is the whole number below its magnitude, and a float rounded to a
whole number, a half away from zero, is the one below its magnitude and a half. This is a float
again: beyond 53 bits a float has no fraction.
-/
import Mathlib
import Scripting.Proofs.Number.Operations

namespace Scripting

open FloatParts

variable {x : Float} {negative : Bool} {e : Int}

def signedWhole (negative : Bool) (n : Nat) : Int := if negative then -n else n

theorem signedWhole_zero (negative : Bool) : signedWhole negative 0 = 0 := by
  cases negative <;> rfl

theorem signedWhole_natAbs (n : Int) : signedWhole (decide (n < 0)) n.natAbs = n := by
  by_cases h : n < 0
  · rw [signedWhole, decide_eq_true h, if_pos rfl]
    omega
  · rw [signedWhole, decide_eq_false h, if_neg Bool.false_ne_true]
    omega

theorem abs_signedWhole_sub (negative : Bool) (a b : Nat) :
    |signedWhole negative a - signedWhole negative b| = |(a : Int) - b| := by
  cases negative with
  | false => rfl
  | true =>
    change |-(a : Int) - -(b : Int)| = _
    rw [← abs_neg]
    ring_nf

theorem abs_signedWhole (negative : Bool) (n : Nat) : |signedWhole negative n| = n := by
  cases negative <;> simp [signedWhole]

theorem dvd_signedWhole (negative : Bool) {d n : Nat} (h : d ∣ n) :
    (d : Int) ∣ signedWhole negative n := by
  cases negative with
  | false => exact Int.natCast_dvd_natCast.2 h
  | true => exact (Int.natCast_dvd_natCast.2 h).neg_right

theorem signedWhole_succ_sub_sign (negative : Bool) (n : Nat) :
    signedWhole negative (n + 1) - (signedWhole negative (n + 1)).sign = signedWhole negative n := by
  cases negative with
  | false =>
    change (n + 1 : Int) - (n + 1 : Int).sign = n
    rw [Int.sign_natCast_add_one]
    omega
  | true =>
    change -(n + 1 : Int) - (-(n + 1 : Int)).sign = -n
    rw [Int.sign_neg, Int.sign_natCast_add_one]
    omega

/-! ### Fractions -/

theorem binaryFraction_eq (m : Nat) (e : Int) :
    0 < (binaryFraction m e).2 ∧
      ((binaryFraction m e).1 / (binaryFraction m e).2 : ℚ) = magnitude m e := by
  unfold binaryFraction magnitude
  split
  next he =>
    obtain ⟨k, rfl⟩ := Int.eq_ofNat_of_zero_le he
    refine ⟨one_pos, ?_⟩
    change ((m * 2 ^ k : Nat) / (1 : Nat) : ℚ) = m * 2 ^ (k : Int)
    simp
  next he =>
    obtain ⟨k, rfl⟩ : ∃ k : Nat, e = -k := ⟨(-e).toNat, by omega⟩
    rw [Int.neg_neg, Int.toNat_natCast]
    refine ⟨Nat.two_pow_pos k, ?_⟩
    change (m / (2 ^ k : Nat) : ℚ) = m * 2 ^ (-k : Int)
    rw [zpow_neg, zpow_natCast, ← div_eq_mul_inv]
    push_cast
    rfl

theorem floatTruncated_eq {m : Nat} (hx : FloatParts.of x = .finite negative m e) :
    floatTruncated? x = some (signedWhole negative ⌊magnitude m e⌋₊) := by
  have hfloor : ⌊magnitude m e⌋₊ = (binaryFraction m e).1 / (binaryFraction m e).2 := by
    rw [← (binaryFraction_eq m e).2, Nat.floor_div_eq_div]
  rw [hfloor, floatTruncated?, hx]
  rfl

theorem floatTruncated_zero (hx : FloatParts.of x = .finite negative 0 e) :
    floatTruncated? x = some 0 := by
  rw [floatTruncated_eq hx, magnitude, Nat.cast_zero, zero_mul, Nat.floor_zero, signedWhole_zero]

/-! ### Rounding to a whole number -/

theorem roundedQuotient_halfAway (negative : Bool) (num : Nat) {den : Nat} (hden : 0 < den) :
    roundedQuotient .halfAway negative num den = ⌊(num / den + 1 / 2 : ℚ)⌋₊ := by
  have hpos : (0 : ℚ) < den := by exact_mod_cast hden
  have hbounds : 2 * (roundedQuotient .halfAway negative num den * den) ≤ 2 * num + den ∧
      2 * num + den < 2 * (roundedQuotient .halfAway negative num den * den) + 2 * den := by
    have hdiv : num / den * den + num % den = num := Nat.div_add_mod' num den
    have hrest : num % den < den := Nat.mod_lt _ hden
    have hnext : (num / den + 1) * den = num / den * den + den := Nat.succ_mul _ _
    simp only [roundedQuotient, decide_eq_true_eq]
    split <;> omega
  obtain ⟨hlow, hhigh⟩ := hbounds
  refine (Nat.floor_eq_iff (by positivity)).2 ⟨?_, ?_⟩ |>.symm
  · rw [div_add_div _ _ hpos.ne' two_ne_zero, le_div_iff₀ (by positivity)]
    have : (2 * (roundedQuotient .halfAway negative num den * den) : ℚ) ≤ 2 * num + den := by
      exact_mod_cast hlow
    linarith
  rw [div_add_div _ _ hpos.ne' two_ne_zero, div_lt_iff₀ (by positivity)]
  have : (2 * num + den : ℚ) < 2 * (roundedQuotient .halfAway negative num den * den) + 2 * den := by
    exact_mod_cast hhigh
  linarith

theorem of_signedFloat_zero (negative : Bool) :
    FloatParts.of (signedFloat negative 0) = .finite negative 0 (-1074) := by
  cases negative <;> decide +kernel

theorem signedFloat_floatIs (negative : Bool) {n : Nat} (hpos : 0 < n) (h : n < 2 ^ 53) :
    FloatIs (signedFloat negative n) negative n := by
  obtain ⟨m, e, hof, hnormal, hmagnitude, -⟩ := of_ofNat hpos (by omega)
  rw [keptBits_of_lt h, droppedBits_of_lt h, pow_zero, mul_one] at hmagnitude
  refine ⟨m, e, ?_, hnormal, hmagnitude⟩
  cases negative with
  | false => exact hof
  | true => exact of_neg hof hnormal

theorem floatRounded_of_neg {m : Nat} (hx : FloatParts.of x = .finite negative m e) (he : e < 0) :
    floatRounded .halfAway x = signedFloat negative ⌊magnitude m e + 1 / 2⌋₊ := by
  obtain ⟨hden, hvalue⟩ := binaryFraction_eq m e
  rw [floatRounded, hx, ← hvalue, ← roundedQuotient_halfAway negative _ hden]
  exact if_neg (not_le.2 he)

/-- A half goes away from zero. Zero keeps the sign. -/
theorem floatRounded_halfAway {f : ℚ} (hx : FloatIs x negative f) :
    (⌊f + 1 / 2⌋₊ = 0 ∧ FloatParts.of (floatRounded .halfAway x) = .finite negative 0 (-1074)) ∨
      (0 < ⌊f + 1 / 2⌋₊ ∧ FloatIs (floatRounded .halfAway x) negative ⌊f + 1 / 2⌋₊) := by
  obtain ⟨m, e, hof, hnormal, rfl⟩ := hx
  by_cases he : 0 ≤ e
  · -- there is no fraction
    have hrounded : floatRounded .halfAway x = x := by
      rw [floatRounded, hof]
      exact if_pos he
    obtain ⟨k, rfl⟩ := Int.eq_ofNat_of_zero_le he
    have hwhole : magnitude m (k : Int) = (m * 2 ^ k : Nat) := by
      rw [magnitude, zpow_natCast]
      push_cast
      rfl
    have hfloor : ⌊magnitude m (k : Int) + 1 / 2⌋₊ = m * 2 ^ k := by
      rw [hwhole, Nat.floor_eq_iff (by positivity)]
      constructor <;> linarith
    refine .inr ⟨hfloor ▸ Nat.mul_pos hnormal.pos (Nat.two_pow_pos k), ?_⟩
    rw [hrounded, hfloor, ← hwhole]
    exact ⟨m, _, hof, hnormal, rfl⟩
  have hsmall : ⌊magnitude m e + 1 / 2⌋₊ < 2 ^ 53 := by
    rw [Nat.floor_lt (by have := magnitude_nonneg m e; linarith)]
    have hhigh : (m : ℚ) < 2 ^ 53 := by exact_mod_cast hnormal.high
    have hpower : (2 : ℚ) ^ e ≤ 2 ^ (-1 : Int) := zpow_le_zpow_right₀ (by norm_num) (by omega)
    have : magnitude m e ≤ 2 ^ 53 * 2 ^ (-1 : Int) := by
      unfold magnitude
      gcongr
    norm_num at this ⊢
    linarith
  rw [floatRounded_of_neg hof (not_le.1 he)]
  rcases Nat.eq_zero_or_pos ⌊magnitude m e + 1 / 2⌋₊ with hzero | hpos
  · refine .inl ⟨hzero, ?_⟩
    rw [hzero, of_signedFloat_zero]
  · exact .inr ⟨hpos, signedFloat_floatIs negative hpos hsmall⟩

theorem floatRounded_zero (hx : FloatParts.of x = .finite negative 0 e) (he : e < 0) :
    FloatParts.of (floatRounded .halfAway x) = .finite negative 0 (-1074) := by
  have hzero : ⌊magnitude 0 e + 1 / 2⌋₊ = 0 := by
    rw [Nat.floor_eq_zero, magnitude, Nat.cast_zero, zero_mul]
    norm_num
  rw [floatRounded_of_neg hx he, hzero, of_signedFloat_zero]

/-! ### Whole numbers as nearest floats -/

theorem nearestFloat_self {f : ℚ} (h : IsNormal f) : NearestFloat f f where
  isNormal := h
  near _ := by
    rw [sub_self, abs_zero]
    exact abs_nonneg _
  close := by
    rw [sub_self, abs_zero, zero_mul]
    exact h.pos.le

theorem floatOfInt_nearest {n : Int} (hn : n ≠ 0) (h : n.natAbs < 2 ^ 64) :
    ∃ f, FloatIs (floatOfInt n) (decide (n < 0)) f ∧ NearestFloat n.natAbs f := by
  obtain ⟨m, e, hof, hnormal, hmagnitude, -⟩ := of_floatOfInt hn h
  refine ⟨_, ⟨m, e, hof, hnormal, rfl⟩, ?_⟩
  rw [hmagnitude]
  by_cases hsmall : n.natAbs < 2 ^ 53
  · rw [keptBits_of_lt hsmall, droppedBits_of_lt hsmall, pow_zero, mul_one]
    exact nearestFloat_self (isNormal_natCast (Int.natAbs_pos.2 hn) hsmall)
  have hnearest := @keptQuotient_nearest 0 n.natAbs 1 one_pos (by omega)
  simp only [Nat.div_one, keptQuotient_one, zero_add, zpow_natCast, zpow_zero, mul_one,
    Nat.cast_one, div_one] at hnearest
  exact hnearest ⟨m, e, hnormal, hmagnitude⟩

end Scripting
