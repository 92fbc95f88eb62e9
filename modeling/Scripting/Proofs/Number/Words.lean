/-
# Arithmetic in words

A checked result is exact, and it is missing only if it is no word. The quotient rounded down
and its remainder are corrected with plain operations, and these never leave the words, so that
it does not matter what would become of a result that did (`floorDivWith_eq`,
`floorModWith_eq`). A power by repeated squaring is there exactly if it is a word
(`timesPow?_eq`): a product that is none has another factor to come, and a square that is none
is larger than the least word, because 2 ^ 63 is no square.
-/
import Mathlib
import Scripting.Number.Word

namespace Scripting.Word64

/-! ### Checked results -/

theorem fits_iff {n : Int} : fits n = true ↔ -2 ^ 63 ≤ n ∧ n < 2 ^ 63 := by
  have hmax : Int64.maxValue.toInt = 2 ^ 63 - 1 := Int64.toInt_maxValue
  rw [fits, Bool.and_eq_true, decide_eq_true_eq, decide_eq_true_eq, hmax, Int64.toInt_minValue]
  omega

theorem ofInt?_eq_none_iff {n : Int} : ofInt? n = none ↔ ¬ fits n := by
  simp [ofInt?]

theorem ofInt?_toInt (a : Int64) : ofInt? a.toInt = some a := ofInt?_eq_some_iff.2 rfl

theorem exists_word {n : Int} (h : fits n = true) : ∃ word : Int64, word.toInt = n :=
  ⟨Int64.ofInt n, toInt_ofInt_of_fits h⟩

/-! ### Plain results -/

section Plain

variable {m : Type → Type} [Monad m]

/-- A plain result that is a word is that word. -/
def Faithful (plain : Int → m Int64) : Prop := ∀ word : Int64, plain word.toInt = pure word

theorem wrapped_faithful : Faithful wrapped := Int64.ofInt_toInt

theorem ofInt?_faithful : Faithful ofInt? := ofInt?_toInt

end Plain

/-! ### Quotients -/

theorem hasQuotient_iff {a b : Int64} :
    hasQuotient a b = true ↔ b ≠ 0 ∧ ¬ (a = Int64.minValue ∧ b = -1) := by
  by_cases ha : a = Int64.minValue <;> simp [hasQuotient, ha]

theorem toInt_div {a b : Int64} (h : hasQuotient a b = true) :
    (a / b).toInt = a.toInt.tdiv b.toInt := by
  by_cases ha : a = Int64.minValue
  · exact Int64.toInt_div_of_ne_right a b fun hb => (hasQuotient_iff.1 h).2 ⟨ha, hb⟩
  · exact Int64.toInt_div_of_ne_left a b ha

theorem toInt_ne_zero {a : Int64} (h : a ≠ 0) : a.toInt ≠ 0 := fun h' => h (Int64.toInt_inj.1 h')

/-- The quotient rounded down is one less than the one toward zero if something is left and the
signs differ. -/
theorem fdiv_eq_corrected {a b : Int} (hb : b ≠ 0) :
    a.fdiv b = if a.tmod b ≠ 0 ∧ ¬ (a < 0 ↔ b < 0) then a.tdiv b - 1 else a.tdiv b := by
  have hdvd : b ∣ a ↔ a.tmod b = 0 := Int.dvd_iff_tmod_eq_zero
  rw [Int.fdiv_eq_tdiv]
  simp only [hdvd]
  rcases lt_or_gt_of_ne hb with hneg | hpos
  · rw [Int.sign_eq_neg_one_of_neg hneg]
    split_ifs <;> omega
  · rw [Int.sign_eq_one_of_pos hpos]
    split_ifs <;> omega

theorem tmod_neg_iff {a b : Int} (h : a.tmod b ≠ 0) : a.tmod b < 0 ↔ a < 0 := by
  rcases lt_or_ge a 0 with hneg | hnonneg
  · have := Int.tmod_nonneg b (show 0 ≤ -a by omega)
    rw [Int.neg_tmod] at this
    omega
  · have := Int.tmod_nonneg b hnonneg
    omega

theorem fmod_eq_corrected {a b : Int} (hb : b ≠ 0) :
    a.fmod b = if a.tmod b ≠ 0 ∧ ¬ (a.tmod b < 0 ↔ b < 0) then a.tmod b + b else a.tmod b := by
  rw [Int.fmod_def, fdiv_eq_corrected hb]
  have htmod : a.tmod b = a - b * a.tdiv b := Int.tmod_def a b
  by_cases hrest : a.tmod b = 0
  · simp [hrest, ← htmod]
  simp only [tmod_neg_iff hrest]
  split_ifs with h
  · rw [mul_sub, mul_one]
    omega
  · exact htmod.symm

/-- If something is left, then the divisor is at least two, and the quotient is far from the
ends of the words. -/
theorem natAbs_tdiv_le {a b : Int64} (h : a.toInt.tmod b.toInt ≠ 0) :
    (a.toInt.tdiv b.toInt).natAbs ≤ 2 ^ 62 := by
  have hb : b.toInt ≠ 1 ∧ b.toInt ≠ -1 := by
    refine ⟨fun hone => h ?_, fun hone => h ?_⟩
    · rw [hone, Int.tmod_one]
    · rw [hone, Int.tmod_neg, Int.tmod_one]
  have ha : a.toInt.natAbs ≤ 2 ^ 63 := by
    have := a.le_toInt
    have := a.toInt_lt
    omega
  rw [Int.natAbs_tdiv]
  change a.toInt.natAbs / b.toInt.natAbs ≤ 2 ^ 62
  rcases Nat.eq_zero_or_pos b.toInt.natAbs with hzero | hpos
  · rw [hzero, Nat.div_zero]
    exact Nat.zero_le _
  · calc a.toInt.natAbs / b.toInt.natAbs ≤ a.toInt.natAbs / 2 :=
          Nat.div_le_div_left (by omega) (by norm_num)
      _ ≤ 2 ^ 62 := by omega

section Plain

variable {m : Type → Type} [Monad m] [LawfulMonad m] {plain : Int → m Int64}
  (hplain : Faithful plain) (a : Int64) {b : Int64} (hb : b ≠ 0)
include hplain hb

/-- The quotient rounded down is there if it is a word, whatever becomes of plain results that
are none. -/
theorem floorDivWith_eq : floorDivWith plain a b = pure (ofInt? (a.toInt.fdiv b.toInt)) := by
  have hb' := toInt_ne_zero hb
  rw [fdiv_eq_corrected hb', floorDivWith, div?]
  by_cases h : hasQuotient a b = true
  · simp only [if_pos h, ← Int64.toInt_inj.ne, Int64.toInt_mod, Int64.lt_iff_toInt_lt,
      Int64.toInt_zero, toInt_div h]
    split
    next hless =>
      have := natAbs_tdiv_le hless.1
      obtain ⟨word, hword⟩ : ∃ word : Int64, word.toInt = a.toInt.tdiv b.toInt - 1 :=
        exists_word (fits_iff.2 (by omega))
      rw [← hword, hplain word, ofInt?_toInt, map_pure]
    · rw [← toInt_div h, ofInt?_toInt]
  -- only the least word divided by minus one has no quotient
  rw [if_neg h, hasQuotient_iff] at *
  obtain ⟨rfl, rfl⟩ : a = Int64.minValue ∧ b = -1 := by tauto
  rfl

/-- The remainder of the division rounded down is there if the quotient toward zero is. -/
theorem floorModWith_eq : floorModWith plain a b =
    pure (if hasQuotient a b then ofInt? (a.toInt.fmod b.toInt) else none) := by
  have hb' := toInt_ne_zero hb
  rw [fmod_eq_corrected hb', floorModWith, mod?]
  by_cases h : hasQuotient a b = true
  · simp only [if_pos h, ← Int64.toInt_inj.ne, Int64.toInt_mod, Int64.lt_iff_toInt_lt,
      Int64.toInt_zero]
    split
    next hmore =>
      have hrest := fits_iff.1 (fits_toInt (a % b))
      have hdivisor := fits_iff.1 (fits_toInt b)
      rw [Int64.toInt_mod] at hrest
      obtain ⟨word, hword⟩ : ∃ word : Int64, word.toInt = a.toInt.tmod b.toInt + b.toInt :=
        exists_word (fits_iff.2 (by omega))
      rw [← hword, hplain word, ofInt?_toInt, map_pure]
    · rw [← Int64.toInt_mod, ofInt?_toInt]
  · rw [if_neg h, if_neg h]

end Plain

/-! ### Powers -/

theorem not_fits_of_large {n : Int} (h : 2 ^ 63 < n.natAbs) : ¬ fits n = true := by
  rw [fits_iff]
  omega

theorem large_of_not_fits {n : Int} (h : ¬ fits n = true) : 2 ^ 63 ≤ n.natAbs := by
  rw [fits_iff] at h
  omega

theorem large_of_not_fits_sq {b : Int} (h : ¬ fits (b * b) = true) : 2 ^ 63 < (b * b).natAbs := by
  have hlarge := large_of_not_fits h
  rw [Int.natAbs_mul] at hlarge ⊢
  rcases lt_or_ge b.natAbs 3037000500 with hsmall | hbig
  · have : b.natAbs * b.natAbs ≤ 3037000499 * 3037000499 := Nat.mul_le_mul (by omega) (by omega)
    omega
  · have : 3037000500 * 3037000500 ≤ b.natAbs * b.natAbs := Nat.mul_le_mul hbig hbig
    omega

theorem pow_eq_sq_pow (b : Int) (n : Nat) : b ^ n = b ^ (n % 2) * (b * b) ^ (n / 2) := by
  rw [← sq, ← pow_mul, ← pow_add, Nat.mod_add_div]

theorem natAbs_mul_sq_le (p : Int) {b : Int} (hb : b ≠ 0) {n : Nat} (hn : 2 ≤ n) :
    (p * b ^ (n % 2)).natAbs * (b * b).natAbs ≤ (p * b ^ n).natAbs := by
  have hpos : 0 < (b * b).natAbs := Int.natAbs_pos.2 (mul_ne_zero hb hb)
  rw [pow_eq_sq_pow b n, ← mul_assoc, Int.natAbs_mul (p * b ^ (n % 2)), Int.natAbs_pow]
  exact Nat.mul_le_mul_left _ (Nat.le_self_pow (by omega) _)

theorem oddFactor_eq (p b : Int64) (n : Nat) :
    (if n % 2 = 1 then mul? p b else some p) = ofInt? (p.toInt * b.toInt ^ (n % 2)) := by
  rcases Nat.mod_two_eq_zero_or_one n with heven | hodd
  · rw [heven, if_neg (by decide), pow_zero, mul_one, ofInt?_toInt]
  · rw [hodd, if_pos rfl, pow_one, mul?]

/-- Repeated squaring gives a power if that is a word: what is no word on the way makes the
power none, too. -/
theorem timesPow?_eq (n : Nat) : ∀ {p b : Int64}, p ≠ 0 → 2 ≤ b.toInt.natAbs →
    timesPow? p b n = ofInt? (p.toInt * b.toInt ^ n) := by
  induction n using Nat.strong_induction_on with
  | _ n ih =>
    intro p b hp hb
    have hbase : b.toInt ≠ 0 := by
      rintro hzero
      rw [hzero] at hb
      contradiction
    rw [timesPow?]
    by_cases hzero : n = 0
    · rw [if_pos hzero, hzero, pow_zero, mul_one, ofInt?_toInt]
    by_cases hone : n = 1
    · rw [if_neg hzero, if_pos hone, hone, pow_one, mul?]
    rw [if_neg hzero, if_neg hone, oddFactor_eq]
    have hfactors := natAbs_mul_sq_le p.toInt hbase (show 2 ≤ n by omega)
    cases hq : ofInt? (p.toInt * b.toInt ^ (n % 2)) with
    | none =>
      have hlarge := large_of_not_fits (ofInt?_eq_none_iff.1 hq)
      have hfour : 4 ≤ (b.toInt * b.toInt).natAbs := by
        rw [Int.natAbs_mul]
        exact Nat.mul_le_mul hb hb
      rw [Option.bind_none, eq_comm, ofInt?_eq_none_iff]
      refine not_fits_of_large (lt_of_lt_of_le ?_ hfactors)
      calc 2 ^ 63 < 2 ^ 63 * 4 := by norm_num
        _ ≤ _ := Nat.mul_le_mul hlarge hfour
    | some q =>
      have hvalue := ofInt?_eq_some_iff.1 hq
      have hq' : q.toInt ≠ 0 := by
        rw [hvalue]
        exact mul_ne_zero (toInt_ne_zero hp) (pow_ne_zero _ hbase)
      rw [Option.bind_some, mul?]
      cases hs : ofInt? (b.toInt * b.toInt) with
      | none =>
        have hlarge := large_of_not_fits_sq (ofInt?_eq_none_iff.1 hs)
        rw [Option.bind_none, eq_comm, ofInt?_eq_none_iff]
        refine not_fits_of_large (lt_of_lt_of_le ?_ hfactors)
        rw [← hvalue]
        exact lt_of_lt_of_le hlarge (Nat.le_mul_of_pos_left _ (Int.natAbs_pos.2 hq'))
      | some square =>
        have hsquare := ofInt?_eq_some_iff.1 hs
        have hsquare' : 2 ≤ square.toInt.natAbs := by
          rw [hsquare, Int.natAbs_mul]
          exact hb.trans (Nat.le_mul_of_pos_left _ (by omega))
        have hq'' : q ≠ 0 := fun h => hq' (h ▸ Int64.toInt_zero)
        rw [Option.bind_some, ih (n / 2) (by omega) hq'' hsquare', hsquare, hvalue,
          pow_eq_sq_pow b.toInt n, mul_assoc]

/-- An exponent of more than 32 bits has no power, and none would be a word. -/
theorem pow?_eq {b : Int64} (hb : 2 ≤ b.toInt.natAbs) (e : Int64) :
    pow? b e = ofInt? (b.toInt ^ e.toInt.toNat) := by
  unfold pow?
  dsimp only
  split
  · rw [timesPow?_eq _ (by decide) hb, show Int64.toInt 1 = 1 from rfl, one_mul]
  next hlong =>
    have hbits : 64 ≤ e.toInt.toNat := le_trans (by decide) (not_lt.1 hlong)
    rw [eq_comm, ofInt?_eq_none_iff]
    refine not_fits_of_large ?_
    rw [Int.natAbs_pow]
    calc 2 ^ 63 < 2 ^ 64 := by norm_num
      _ ≤ 2 ^ e.toInt.toNat := Nat.pow_le_pow_right (by norm_num) hbits
      _ ≤ b.toInt.natAbs ^ e.toInt.toNat := Nat.pow_le_pow_left hb _

end Scripting.Word64
