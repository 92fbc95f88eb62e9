/-
# The text of a float

The decimal with the fewest digits that reads back as a float is looked for on finer and finer
grids of decimals. On the grid of seventeen digits there is always one, and what is found is off
by half a binary place at most. So the decimal of a whole number is whole, and that of any other
number is not. That is what makes the text of a float a float again: it has a point, either of its
own or the one that is put behind a whole number below 10¹⁶. A whole number from there on is
written with digits alone, and they are an int or, from 2⁶³ on, no token at all.
-/
import Mathlib
import Scripting.Builtin
import Scripting.Proofs.Number.Whole
import Scripting.Proofs.RoundTrip.Spelling

namespace Scripting

open FloatParts

variable {m n : Nat} {e scale : Int} {tie : Tie}

/-! ### The first digit -/

namespace Decimal

theorem digitCount_bounds (hn : 0 < n) :
    ∃ more, digitCount n = more + 1 ∧ 10 ^ more ≤ n ∧ n < 10 ^ (more + 1) := by
  obtain ⟨more, hmore⟩ := Nat.exists_eq_add_one.2 (Nat.length_toDigits_pos : 0 < digitCount n)
  refine ⟨more, hmore, ?_, (Nat.length_toDigits_le_iff (by decide) (Nat.succ_pos _)).1 hmore.le⟩
  rcases Nat.eq_zero_or_pos more with rfl | hpos
  · exact hn
  · by_contra hlt
    have hle := (Nat.length_toDigits_le_iff (by decide) hpos).2 (not_le.1 hlt)
    omega

theorem bounds_of_floor {v : ℚ} {j : Nat} (hn : ⌊v * 10 ^ j⌋₊ = n) (hpos : 0 < n) :
    (10 : ℚ) ^ (digitCount n - (j + 1) : Int) ≤ v ∧
      v < 10 ^ (digitCount n - (j + 1) + 1 : Int) := by
  obtain ⟨more, hmore, hle, hlt⟩ := digitCount_bounds hpos
  have hten (k : Nat) : 10 ^ k ≠ 0 := by positivity
  have hshift : (0 : ℚ) < 10 ^ j := by positivity
  have hlow := (Nat.le_floor_iff' (hten _)).1 (hle.trans_eq hn.symm)
  have hhigh := (Nat.floor_lt' (hten _)).1 (hn.trans_lt hlt)
  push_cast at hlow hhigh
  rw [hmore, show ((more + 1 : Nat) - (j + 1) : Int) = more - j by omega, sub_add_eq_add_sub,
    ← Nat.cast_succ, zpow_sub₀ (by norm_num), zpow_sub₀ (by norm_num)]
  simp only [zpow_natCast, div_le_iff₀ hshift, lt_div_iff₀ hshift]
  exact ⟨hlow, hhigh⟩

end Decimal

theorem leadingPower_bounds (hm : 0 < m) (he : -1074 ≤ e) :
    (10 : ℚ) ^ leadingPower m e ≤ magnitude m e ∧ magnitude m e < 10 ^ (leadingPower m e + 1) := by
  unfold leadingPower magnitude
  split
  next hnonneg =>
    obtain ⟨k, rfl⟩ := Int.eq_ofNat_of_zero_le hnonneg
    refine Decimal.bounds_of_floor (j := 0) ?_ (Nat.mul_pos hm (Nat.two_pow_pos k))
    have hvalue : (m * 2 ^ (k : Int) * 10 ^ 0 : ℚ) = (m * 2 ^ k : Nat) := by simp
    exact hvalue ▸ Nat.floor_natCast _
  next hneg =>
    obtain ⟨k, rfl⟩ : ∃ k : Nat, e = -k := ⟨(-e).toNat, by omega⟩
    have hfloor (j : Nat) :
        ⌊(m * 2 ^ (-k : Int) * 10 ^ j : ℚ)⌋₊ = m * Nat.pow 10 j / Nat.pow 2 k := by
      rw [← Nat.floor_div_eq_div (K := ℚ), zpow_neg, zpow_natCast, mul_right_comm, div_eq_mul_inv]
      simp
    generalize hshift : 330 = shift
    have hsmall : Nat.pow 2 k ≤ Nat.pow 10 shift := calc
      2 ^ k ≤ 2 ^ (36 * 30) := Nat.pow_le_pow_right (by decide) (by omega)
      _ = (2 ^ 36) ^ 30 := Nat.pow_mul ..
      _ ≤ (10 ^ 11) ^ 30 := Nat.pow_le_pow_left (by decide) 30
      _ = 10 ^ shift := (Nat.pow_mul ..).symm.trans (congrArg _ hshift)
    rw [Int.neg_neg, Int.toNat_natCast]
    have hbounds := Decimal.bounds_of_floor (hfloor shift)
      (Nat.div_pos (hsmall.trans (Nat.le_mul_of_pos_left _ hm)) (Nat.two_pow_pos k))
    rwa [show (shift + 1 : Int) = 331 by omega] at hbounds

/-! ### Decimals on a grid -/

def Decimal.value (d : Decimal) : ℚ := d.digits * 10 ^ d.scale

theorem Decimal.trimZeros_spec : ∀ (fuel digits : Nat) (scale : Int),
    (trimZeros fuel digits scale).value = value ⟨digits, scale⟩ ∧
      scale ≤ (trimZeros fuel digits scale).scale
  | 0, _, _ => ⟨rfl, le_rfl⟩
  | fuel + 1, digits, scale => by
    rw [trimZeros]
    split
    next hzero =>
      obtain ⟨hvalue, hscale⟩ := trimZeros_spec fuel (digits / 10) (scale + 1)
      have hdigits : ((digits / 10 : Nat) * 10 : ℚ) = digits := by
        exact_mod_cast Nat.div_mul_cancel (Nat.dvd_of_mod_eq_zero hzero.1)
      refine ⟨?_, by omega⟩
      rw [hvalue, value, value, zpow_add_one₀ (by norm_num), mul_left_comm, mul_comm, hdigits]
    · exact ⟨rfl, le_rfl⟩

section Grid

variable {r : ReadBack} {num den : Nat}

theorem ReadBack.mem_of_onGrid {digits : Nat} (h : r.onGrid tie num den = some digits) :
    r.low * num ≤ digits * den ∧ digits * den ≤ r.high * num := by
  unfold onGrid at h
  dsimp only at h
  generalize r.value * num / den = below at h
  split at h
  next hbelow habove =>
    have hnext : digits = below ∨ digits = below + 1 := by grind
    clear h
    rcases hnext with rfl | rfl <;> grind
  all_goals grind

theorem ReadBack.onGrid_isSome (hhigh : r.value < r.high) (hnum : 0 < num)
    (hlow : r.low * num < r.value * num / den * den) : (r.onGrid tie num den).isSome = true := by
  have hbelow : r.value * num / den * den ≤ r.value * num := Nat.div_mul_le_self _ _
  have habove : r.value * num < r.high * num := Nat.mul_lt_mul_of_pos_right hhigh hnum
  unfold onGrid
  grind

end Grid

theorem pow_toNat {b : ℚ} (hb : b ≠ 0) (k : Int) : b ^ k.toNat = b ^ k * b ^ (-k).toNat := by
  rw [← zpow_natCast, ← zpow_natCast, ← zpow_add₀ hb]
  congr 1
  omega

/-- The digits with a scale that read back as a float, if there are any. -/
def digitsAt? (tie : Tie) (mantissa : Nat) (exponent scale : Int) : Option Nat :=
  (ReadBack.of mantissa exponent).onGrid tie
    (Nat.pow 2 (exponent - 2).toNat * Nat.pow 10 (-scale).toNat)
    (Nat.pow 2 (-(exponent - 2)).toNat * Nat.pow 10 scale.toNat)

/-- The grid, with a quarter of a binary place and a step of it in a common unit. -/
theorem exists_grid (tie : Tie) (m : Nat) (e scale : Int) : ∃ (num den : Nat) (unit : ℚ),
    0 < unit ∧ (num : ℚ) = 2 ^ (e - 2) * unit ∧ (den : ℚ) = 10 ^ scale * unit ∧
      digitsAt? tie m e scale = (ReadBack.of m e).onGrid tie num den := by
  refine ⟨_, _, 2 ^ (-(e - 2)).toNat * 10 ^ (-scale).toNat, by positivity, ?_, ?_, rfl⟩
  · change ((2 ^ (e - 2).toNat * 10 ^ (-scale).toNat : Nat) : ℚ) = _
    rw [Nat.cast_mul, Nat.cast_pow, Nat.cast_pow, Nat.cast_ofNat, pow_toNat (by norm_num),
      mul_assoc]
    rfl
  · change ((2 ^ (-(e - 2)).toNat * 10 ^ scale.toNat : Nat) : ℚ) = _
    rw [Nat.cast_mul, Nat.cast_pow, Nat.cast_pow, Nat.cast_ofNat, Nat.cast_ofNat,
      pow_toNat (b := 10) (by norm_num), mul_left_comm]

theorem magnitude_quarters (m : Nat) (e : Int) : magnitude m e = (4 * m : Nat) * 2 ^ (e - 2) := by
  rw [magnitude, zpow_sub₀ (by norm_num)]
  push_cast
  ring

/-- Digits that read back are off by half a binary place at most. -/
theorem near_of_digitsAt? {digits : Nat} (hm : 0 < m)
    (h : digitsAt? tie m e scale = some digits) :
    (4 * m - 2 : Nat) * 2 ^ (e - 2) ≤ Decimal.value ⟨digits, scale⟩ ∧
      Decimal.value ⟨digits, scale⟩ ≤ (4 * m + 2 : Nat) * 2 ^ (e - 2) := by
  obtain ⟨num, den, unit, hunit, hnum, hden, hgrid⟩ := exists_grid tie m e scale
  obtain ⟨hlow, hhigh⟩ := ReadBack.mem_of_onGrid (hgrid ▸ h)
  have hless : 4 * m - 2 ≤ (ReadBack.of m e).low := by
    change _ ≤ 4 * m - (if _ then 1 else 2)
    split <;> omega
  replace hlow := Nat.cast_le (α := ℚ).2 ((Nat.mul_le_mul_right _ hless).trans hlow)
  replace hhigh := Nat.cast_le (α := ℚ).2 hhigh
  rw [Nat.cast_mul, Nat.cast_mul, hnum, hden, ← mul_assoc, ← mul_assoc] at hlow hhigh
  exact ⟨le_of_mul_le_mul_right hlow hunit, le_of_mul_le_mul_right hhigh hunit⟩

theorem digitsAt?_isSome (hm : 0 < m)
    (h : (10 : ℚ) ^ scale ≤ 2 ^ (e - 2) ∨ scale = 0 ∧ ∃ n : Nat, magnitude m e = n) :
    (digitsAt? tie m e scale).isSome = true := by
  obtain ⟨num, den, unit, hunit, hnum, hden, hgrid⟩ := exists_grid tie m e scale
  have hlow : (ReadBack.of m e).low < 4 * m := by
    change 4 * m - (if _ then 1 else 2) < _
    split <;> omega
  have hpos : 0 < num := Nat.cast_pos (α := ℚ).1 (by rw [hnum]; positivity)
  rw [hgrid]
  refine ReadBack.onGrid_isSome (Nat.lt_add_of_pos_right (by decide)) hpos ?_
  change _ < 4 * m * num / den * den
  rcases h with hstep | ⟨rfl, n, hn⟩
  · have hle : den ≤ num := by
      refine Nat.cast_le (α := ℚ).1 ?_
      rw [hnum, hden]
      exact mul_le_mul_of_nonneg_right hstep hunit.le
    have hdenpos : 0 < den := Nat.cast_pos (α := ℚ).1 (by rw [hden]; positivity)
    have hfloor := Nat.lt_div_mul_add (a := 4 * m * num) hdenpos
    have hgap : (ReadBack.of m e).low * num + num ≤ 4 * m * num := by
      rw [← Nat.succ_mul]
      exact Nat.mul_le_mul_right _ hlow
    omega
  have hexact : 4 * m * num = n * den := by
    refine Nat.cast_injective (R := ℚ) ?_
    rw [Nat.cast_mul, hnum, ← mul_assoc, ← magnitude_quarters, hn, Nat.cast_mul, hden, zpow_zero,
      one_mul]
  rw [Nat.div_mul_cancel (hexact ▸ Nat.dvd_mul_left den n)]
  exact Nat.mul_lt_mul_of_pos_right hlow hpos

theorem shortest_of_digitsAt? (hm : m ≠ 0) {most : Nat} (hmost : most < 18)
    (h : (digitsAt? tie m e (leadingPower m e - most)).isSome = true) :
    ∃ count ≤ most, ∃ digits, digitsAt? tie m e (leadingPower m e - count) = some digits ∧
      shortest tie m e = Decimal.trimZeros 20 digits (leadingPower m e - count) := by
  let withDigits (count : Nat) : Option Decimal :=
    (digitsAt? tie m e (leadingPower m e - count)).map
      fun digits => Decimal.trimZeros 20 digits (leadingPower m e - count)
  have hshortest : shortest tie m e = ((List.range 18).findSome? withDigits).getD ⟨0, 0⟩ :=
    if_neg hm
  obtain ⟨d, hd⟩ : ∃ d, (List.range (most + 1)).findSome? withDigits = some d :=
    Option.isSome_iff_exists.1 (List.findSome?_isSome_iff.2
      ⟨most, List.mem_range.2 (by omega), by rw [Option.isSome_map]; exact h⟩)
  rw [show 18 = most + 1 + (17 - most) by omega, List.range_add, List.findSome?_append, hd]
    at hshortest
  obtain ⟨count, hcount, hfound⟩ := List.exists_of_findSome?_eq_some hd
  obtain ⟨digits, hdigits, rfl⟩ := Option.map_eq_some_iff.1 hfound
  have hle := List.mem_range.1 hcount
  exact ⟨count, by omega, digits, hdigits, hshortest⟩

theorem leadingPower_nonneg {n : Nat} (hm : 0 < m) (he : -1074 ≤ e) (hn : magnitude m e = n) :
    0 ≤ leadingPower m e := by
  have hpos := magnitude_pos hm e
  have hlt := (leadingPower_bounds hm he).2
  rw [hn] at hlt hpos
  have hone : (10 : ℚ) ^ (0 : Int) < 10 ^ (leadingPower m e + 1) :=
    lt_of_le_of_lt (by rw [zpow_zero]; exact_mod_cast hpos) hlt
  have := (zpow_lt_zpow_iff_right₀ (by norm_num)).1 hone
  omega

/-- Seventeen digits suffice. -/
theorem digitsAt?_seventeen (tie : Tie) (hm : 0 < m) (hm' : m < 2 ^ 53) (he : -1074 ≤ e) :
    (digitsAt? tie m e (leadingPower m e - (17 : Nat))).isSome = true := by
  refine digitsAt?_isSome hm (.inl ?_)
  rw [zpow_sub₀ (by norm_num), zpow_natCast, div_le_iff₀ (by positivity)]
  calc (10 : ℚ) ^ leadingPower m e ≤ magnitude m e := (leadingPower_bounds hm he).1
    _ = (4 * m : Nat) * 2 ^ (e - 2) := magnitude_quarters m e
    _ ≤ (10 ^ 17 : Nat) * 2 ^ (e - 2) := by
      gcongr
      omega
    _ = 2 ^ (e - 2) * 10 ^ 17 := by
      push_cast
      ring

theorem shortest_scale_nonneg {n : Nat} (tie : Tie) (hm' : m < 2 ^ 53) (he : -1074 ≤ e)
    (hn : magnitude m e = n) : 0 ≤ (shortest tie m e).scale := by
  rcases Nat.eq_zero_or_pos m with rfl | hm
  · exact le_rfl
  have hleading := leadingPower_nonneg hm he hn
  obtain ⟨most, hmost, hle, hsome⟩ : ∃ most : Nat, most < 18 ∧ most ≤ leadingPower m e ∧
      (digitsAt? tie m e (leadingPower m e - most)).isSome = true := by
    by_cases hsmall : leadingPower m e ≤ 17
    · exact ⟨(leadingPower m e).toNat, by omega, by omega,
        digitsAt?_isSome hm (.inr ⟨by omega, n, hn⟩)⟩
    · exact ⟨17, by decide, by omega, digitsAt?_seventeen tie hm hm' he⟩
  obtain ⟨count, hcount, digits, -, hshortest⟩ := shortest_of_digitsAt? hm.ne' hmost hsome
  have hscale := (Decimal.trimZeros_spec 20 digits (leadingPower m e - count)).2
  rw [hshortest]
  omega

theorem magnitude_eq_of_near {k : Nat} (hlow : (4 * m - 2 : Nat) * 2 ^ (-k - 2 : Int) ≤ (n : ℚ))
    (hhigh : (n : ℚ) ≤ (4 * m + 2 : Nat) * 2 ^ (-k - 2 : Int)) : magnitude m (-k) = n := by
  have hunit : (2 : ℚ) ^ (-k - 2 : Int) * (4 * 2 ^ k) = 1 := by
    rw [zpow_sub₀ (by norm_num), zpow_neg, zpow_natCast]
    field_simp
    norm_num
  have hplaces : (0 : ℚ) ≤ 4 * 2 ^ k := by positivity
  replace hlow := mul_le_mul_of_nonneg_right hlow hplaces
  replace hhigh := mul_le_mul_of_nonneg_right hhigh hplaces
  rw [mul_assoc, hunit, mul_one] at hlow hhigh
  -- counted in quarters of a place, both are whole and less than four of them apart
  have hmantissa : m = n * 2 ^ k := by
    have hlow' : 4 * m - 2 ≤ n * (4 * 2 ^ k) := by exact_mod_cast hlow
    have hhigh' : n * (4 * 2 ^ k) ≤ 4 * m + 2 := by exact_mod_cast hhigh
    rw [Nat.mul_left_comm] at hlow' hhigh'
    omega
  rw [magnitude, hmantissa]
  push_cast
  rw [mul_assoc, ← zpow_natCast, ← zpow_add₀ (by norm_num), add_neg_cancel, zpow_zero, mul_one]

theorem shortest_scale_neg (tie : Tie) (hm' : m < 2 ^ 53) (he : -1074 ≤ e)
    (hn : ∀ n : Nat, magnitude m e ≠ n) : (shortest tie m e).scale < 0 := by
  have hm : 0 < m := by
    refine Nat.pos_of_ne_zero ?_
    rintro rfl
    exact hn 0 (by simp [magnitude])
  obtain ⟨k, rfl⟩ : ∃ k : Nat, e = -k := by
    refine ⟨(-e).toNat, ?_⟩
    by_contra hne
    obtain ⟨j, rfl⟩ : ∃ j : Nat, e = j := ⟨e.toNat, by omega⟩
    exact hn (m * 2 ^ j) (by simp [magnitude])
  obtain ⟨count, -, digits, hdigits, hshortest⟩ :=
    shortest_of_digitsAt? hm.ne' (by decide) (digitsAt?_seventeen tie hm hm' he)
  obtain ⟨hlow, hhigh⟩ := near_of_digitsAt? hm hdigits
  rw [← (Decimal.trimZeros_spec 20 digits _).1, ← hshortest] at hlow hhigh
  by_contra hscale
  obtain ⟨s, hs⟩ := Int.eq_ofNat_of_zero_le (not_lt.1 hscale)
  have hvalue : (shortest tie m (-k)).value = ((shortest tie m (-k)).digits * 10 ^ s : Nat) := by
    rw [Decimal.value, hs]
    push_cast
    rfl
  rw [hvalue] at hlow hhigh
  exact hn _ (magnitude_eq_of_near hlow hhigh)

/-! ### Texts of numbers -/

variable {x : Float} {negative : Bool}

theorem floatIsWhole_iff (hx : FloatParts.of x = .finite negative m e) :
    floatIsWhole x = true ↔ ∃ n : Nat, magnitude m e = n := by
  obtain ⟨hden, hvalue⟩ := binaryFraction_eq m e
  have hwhole : floatIsWhole x = ((binaryFraction m e).1 % (binaryFraction m e).2 == 0) := by
    rw [floatIsWhole, hx]
  rw [hwhole, beq_iff_eq, ← Nat.dvd_iff_mod_eq_zero, ← hvalue]
  refine exists_congr fun n => ?_
  rw [div_eq_iff (by exact_mod_cast hden.ne'), mul_comm]
  norm_cast

theorem fixedPlaces_one (hn : magnitude m e = n) :
    fixedPlaces 1 m e = String.ofList (Nat.toDigits 10 n ++ ['.', '0']) := by
  obtain ⟨hden, hvalue⟩ := binaryFraction_eq m e
  have hnum : (binaryFraction m e).1 = n * (binaryFraction m e).2 := by
    rw [hn, div_eq_iff (by exact_mod_cast hden.ne')] at hvalue
    exact_mod_cast hvalue
  have hscaled : roundedQuotient .halfEven false (n * (binaryFraction m e).2 * Nat.pow 10 1)
      (binaryFraction m e).2 = 10 * n := by
    have h := roundedQuotient_mul (10 * n) 1 hden
    rw [one_mul, mul_rotate] at h
    exact h.trans (by simp [roundedQuotient, Nat.mod_one])
  unfold fixedPlaces
  dsimp only
  rw [hnum, hscaled]
  rcases Nat.eq_zero_or_pos n with rfl | hpos
  · rfl
  have hdigits : Nat.toDigits 10 (10 * n) = Nat.toDigits 10 n ++ ['0'] :=
    (Nat.toDigits_append_toDigits (by decide) hpos (by decide : 0 < 10)).symm
  have hlength : 0 < (Nat.toDigits 10 n).length := Nat.length_toDigits_pos
  have hpad : 1 + 1 - (Nat.toDigits 10 n ++ ['0']).length = 0 := by
    rw [List.length_append, List.length_singleton]
    omega
  rw [hdigits, hpad]
  simp

theorem floatText_of_small (hx : FloatParts.of x = .finite negative m e) (hn : magnitude m e = n)
    (hsmall : x.abs < 1e16) : floatText x = (if negative then "-" else "") ++
      String.ofList (Nat.toDigits 10 n ++ ['.', '0']) := by
  have hwhole := (floatIsWhole_iff hx).2 ⟨n, hn⟩
  rw [floatText, hx, ← fixedPlaces_one hn]
  exact if_pos (by simp [hwhole, hsmall])

theorem floatText_of_not_small (hx : FloatParts.of x = .finite negative m e)
    (h : ∀ n : Nat, magnitude m e = n → ¬ x.abs < 1e16) :
    floatText x = (if negative then "-" else "") ++ (shortest .up m e).positional := by
  have hlong : ¬ (floatIsWhole x && x.abs < 1e16) = true := by
    rw [Bool.and_eq_true, floatIsWhole_iff hx, decide_eq_true_eq]
    exact fun ⟨⟨n, hn⟩, hsmall⟩ => h n hn hsmall
  rw [floatText, hx]
  dsimp only
  rw [if_neg hlong, plainFloatText, hx]

theorem isDigit_of_mem_zeros {k : Nat} (c : Char) (hc : c ∈ List.replicate k '0') :
    c.isDigit = true := by
  rw [List.eq_of_mem_replicate hc]
  rfl

theorem Decimal.positional_of_nonneg {d : Decimal} (h : 0 ≤ d.scale) :
    ∃ digits, IsDigits digits ∧ d.positional = String.ofList digits := by
  have hdigits := isDigits_toDigits d.digits
  unfold positional
  dsimp only
  rw [if_pos h]
  exact ⟨_, ⟨by simp, List.forall_mem_append.2 ⟨hdigits.isDigit, isDigit_of_mem_zeros⟩⟩, rfl⟩

theorem Decimal.positional_of_neg {d : Decimal} (h : d.scale < 0) :
    ∃ whole fraction, IsDigits whole ∧ IsDigits fraction ∧
      d.positional = String.ofList (whole ++ '.' :: fraction) := by
  have hdigits := isDigits_toDigits d.digits
  unfold positional
  dsimp only
  rw [if_neg (by omega)]
  split
  next hpoint =>
    refine ⟨_, _, ⟨?_, fun c hc => ?_⟩, ⟨?_, fun c hc => ?_⟩, rfl⟩
    · rw [Ne, List.take_eq_nil_iff]
      exact not_or.2 ⟨by omega, hdigits.ne_nil⟩
    · exact hdigits.isDigit c (List.mem_of_mem_take hc)
    · rw [Ne, List.drop_eq_nil_iff]
      omega
    · exact hdigits.isDigit c (List.mem_of_mem_drop hc)
  · exact ⟨['0'], _, isDigits_toDigits 0,
      ⟨by simp, List.forall_mem_append.2 ⟨isDigit_of_mem_zeros, hdigits.isDigit⟩⟩, rfl⟩

/-! ### Tokens of numbers -/

/-- A text is read as one token, behind a minus if its number is negative. -/
def ReadsAs (negative : Bool) (text : String) (kind : Token.Kind) : Prop :=
  ∃ ts, tokenize text = .ok ts ∧
    ts.map Token.kind = (if negative then [.symbol .minus] else []) ++ [kind, .newline, .eof]

theorem scanned_of_isDigit {c : Char} (h : c.isDigit = true) (rest : List Char) :
    Scanned c rest := by
  have hother := not_mem_of_nameContinue (isNameContinue_of_isDigit h)
    [' ', '\t', '\r', '\n', '#', '\\'] rfl
  simp only [List.mem_cons, List.not_mem_nil, not_or, or_false] at hother
  simp [Scanned, isBlank, hother]

section Digits

variable {digits fraction tail : List Char} {kind : Token.Kind} (hdigits : IsDigits digits)
include hdigits

theorem spells_point (hfraction : IsDigits fraction) :
    ∃ y, Spells (digits ++ '.' :: fraction) [.float y] := by
  have hread : NumberText.read (digits ++ '.' :: fraction) = ⟨digits, '.' :: fraction, []⟩ := by
    obtain ⟨c, cs, rfl, hc⟩ := hfraction.exists_cons
    have hpart : NumberText.fractionPart ('.' :: c :: cs) = '.' :: c :: cs := by
      have hcs := List.takeWhile_eq_self_iff.2 (List.forall_mem_cons.1 hfraction.isDigit).2
      rw [NumberText.fractionPart, if_pos hc, hcs]
    rw [NumberText.read_run hdigits (by simp), hpart, List.drop_length]
    rfl
  obtain ⟨first, rest, rfl, hfirst⟩ := hdigits.exists_cons
  refine ⟨(NumberText.mk (first :: rest) ('.' :: fraction) []).decimal.toFloat,
    @Spells.single _ (rest ++ '.' :: fraction) _ ?_⟩
  rw [scanToken_digit hfirst, ← List.cons_append, scanNumber, hread]
  simp [NumberText.isFloat, NumberText.text]

theorem readsAs_of_spells (h : Spells (digits ++ tail) [kind]) (negative : Bool) :
    ReadsAs negative ((if negative then "-" else "") ++ String.ofList (digits ++ tail)) kind := by
  cases negative with
  | false =>
    obtain ⟨found, q, hnone, htokens⟩ := h.tokenizeAt (fun c hc => by
      obtain ⟨first, rest, rfl, hfirst⟩ := hdigits.exists_cons
      cases hc
      exact (scanned_of_isDigit hfirst []).1) .start
    exact ⟨_, by simpa [tokenize] using htokens, by simp [List.map_eq_nil_iff.1 hnone]⟩
  | true =>
    have hsigned : Spells ('-' :: (digits ++ tail)) [.symbol .minus, kind] :=
      .char (scanToken_minus hdigits) h
    obtain ⟨found, q, hkinds, htokens⟩ := hsigned.tokenizeAt (by simp; rfl) .start
    exact ⟨_, by simpa [tokenize] using htokens, by simp [hkinds]⟩

theorem not_reads_large (hlarge : ¬ digitsValue digits < Nat.pow 2 63) (negative : Bool) :
    ∃ wrong, tokenize ((if negative then "-" else "") ++ String.ofList digits) = .error wrong := by
  have hread := @NumberText.read_digits [] _ hdigits (by simp [Closes])
  have hminus := @scanToken_minus [] _ hdigits
  rw [List.append_nil] at hread hminus
  obtain ⟨first, rest, rfl, hfirst⟩ := hdigits.exists_cons
  have hscan := scanToken_digit hfirst rest
  rw [scanNumber, hread] at hscan
  dsimp only [NumberText.isFloat, NumberText.text] at hscan
  rw [if_neg hlarge] at hscan
  obtain ⟨p, hp, hbroken⟩ : ∃ p ∈ lexemes (first :: rest), p.isBroken = true :=
    ⟨_, lexemes_broken (scanned_of_isDigit hfirst rest) hscan ▸ List.mem_cons_self, rfl⟩
  have hmem : p ∈
      lexemes ((if negative then "-" else "") ++ String.ofList (first :: rest)).toList := by
    cases negative with
    | false => simpa using hp
    | true => simpa [lexemes_token hminus] using .inr hp
  cases htokenize : tokenize ((if negative then "-" else "") ++ String.ofList (first :: rest)) with
  | error wrong => exact ⟨wrong, rfl⟩
  | ok ts =>
    obtain ⟨_, _, hfinds, -, -⟩ := tokenizeAt_ok_iff.1 htokenize
    cases hbroken.symm.trans (hfinds.whole rfl p hmem)

end Digits

/-! ### Reading what is printed -/

/-- The text of a finite float is read as a float behind its sign, unless it is a whole number
from 10¹⁶ on. A whole number below has `.0` behind it; from there on it has digits only, and
they are an int or no token at all. -/
theorem float_text_reads (hx : FloatParts.of x = .finite negative m e) :
    ∃ text, (∀ (quiet : Bool) (call : Caller) (w : World),
        Builtin.str.run quiet call [.float x] .empty w = .ok (.str text) w) ∧
      (∀ n : Nat, magnitude m e = n → x.abs < 1e16 →
        text = (if negative then "-" else "") ++ toString n ++ ".0") ∧
      ((∀ n : Nat, magnitude m e = n → x.abs < 1e16) → ∃ y, ReadsAs negative text (.float y)) ∧
      ∀ n : Nat, magnitude m e = n → ¬ x.abs < 1e16 → ∃ digits, IsDigits digits ∧
        text = (if negative then "-" else "") ++ String.ofList digits ∧
        if digitsValue digits < 2 ^ 63 then
          ReadsAs negative text (.int (Int64.ofNat (digitsValue digits)))
        else ∃ wrong, tokenize text = .error wrong := by
  obtain ⟨hm, he, -⟩ : (finite negative m e).Canonical := hx ▸ of_canonical x
  refine ⟨floatText x, fun _ _ _ => rfl, fun n hn hsmall => ?_, fun hsmall => ?_,
    fun n hn hlarge => ?_⟩
  · rw [floatText_of_small hx hn hsmall, String.append_assoc, Nat.toString_eq_ofList_toDigits,
      String.ofList_append]
  · by_cases hwhole : ∃ n : Nat, magnitude m e = n
    · obtain ⟨n, hn⟩ := hwhole
      obtain ⟨y, hy⟩ := spells_point (isDigits_toDigits n) (isDigits_toDigits 0)
      rw [floatText_of_small hx hn (hsmall n hn)]
      exact ⟨y, readsAs_of_spells (isDigits_toDigits n) hy negative⟩
    have hbroken (n : Nat) (hn : magnitude m e = n) : False := hwhole ⟨n, hn⟩
    obtain ⟨whole, fraction, hdigits, hfraction, htext⟩ :=
      Decimal.positional_of_neg (shortest_scale_neg .up hm he hbroken)
    obtain ⟨y, hy⟩ := spells_point hdigits hfraction
    rw [floatText_of_not_small hx fun n hn => (hbroken n hn).elim, htext]
    exact ⟨y, readsAs_of_spells hdigits hy negative⟩
  obtain ⟨digits, hdigits, htext⟩ :=
    Decimal.positional_of_nonneg (shortest_scale_nonneg .up hm he hn)
  rw [floatText_of_not_small hx fun _ _ => hlarge, htext]
  refine ⟨digits, hdigits, rfl, ?_⟩
  split
  next hfits =>
    obtain ⟨own, rfl, hspells⟩ := spelledAs_digits hdigits hfits [] [] (by simp [Closes]) .nil
    have hreads := readsAs_of_spells hdigits hspells negative
    rwa [List.append_nil] at hreads
  next hlarge => exact not_reads_large hdigits hlarge negative

theorem float_text_reads_half : FloatParts.of (-2.5) = .finite true 5629499534213120 (-51) ∧
    ∃ text, (∀ (quiet : Bool) (call : Caller) (w : World),
        Builtin.str.run quiet call [.float (-2.5)] .empty w = .ok (.str text) w) ∧
      ∃ y, ReadsAs true text (.float y) := by
  have hx : FloatParts.of (-2.5) = .finite true 5629499534213120 (-51) := by decide +kernel
  obtain ⟨text, htext, -, hreads, -⟩ := float_text_reads hx
  exact ⟨hx, text, htext, hreads fun _ _ => by decide +kernel⟩

/-- From 10¹⁶ on a whole number is read as an int. -/
theorem large_whole_float_reads_as_int : floatText 1e16 = "10000000000000000" ∧
    ReadsAs false (floatText 1e16) (.int 10000000000000000) := by
  have htext : floatText 1e16 = "10000000000000000" := by decide +kernel
  rw [htext]
  let int : Token := ⟨.int 10000000000000000, ⟨1, 1⟩⟩
  exact ⟨rfl, [int, ⟨.newline, ⟨1, 18⟩⟩, ⟨.eof, ⟨1, 18⟩⟩], by cbv, rfl⟩

end Scripting
