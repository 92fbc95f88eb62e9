/-
# Whole numbers in 64 bits

Script integers are 64-bit words. A checked result is computed exactly, as an integer,
and is a word if it fits; otherwise the operation has no result. Quotients are corrected
and progressions are made with plain operations, which nobody checks. What becomes of a
plain result that does not fit is up to whoever runs them: it wraps around (`wrapped`),
or it ends the computation (`ofInt?`).
-/

namespace Scripting.Word64

/-- Whether an integer fits in 64 bits with a sign. -/
def fits (n : Int) : Bool := Int64.minValue.toInt ≤ n && n ≤ Int64.maxValue.toInt

def ofInt? (n : Int) : Option Int64 := if fits n then some (Int64.ofInt n) else none

theorem fits_toInt (a : Int64) : fits a.toInt = true := by
  have hlow : Int64.minValue.toInt ≤ a.toInt := a.le_toInt
  have hhigh : a.toInt ≤ Int64.maxValue.toInt := Int.le_of_lt_add_one a.toInt_lt
  rw [fits, decide_eq_true hlow, decide_eq_true hhigh]
  rfl

theorem toInt_ofInt_of_fits {n : Int} (h : fits n = true) : (Int64.ofInt n).toInt = n := by
  rw [fits, Bool.and_eq_true, decide_eq_true_eq, decide_eq_true_eq] at h
  exact Int64.toInt_ofInt_of_le h.1 (Int.lt_add_one_of_le h.2)

theorem ofInt?_eq_some_iff {n : Int} {word : Int64} : ofInt? n = some word ↔ word.toInt = n := by
  unfold ofInt?
  split
  next h => rw [Option.some.injEq, ← Int64.toInt_inj, toInt_ofInt_of_fits h, eq_comm]
  next h =>
    constructor
    · intro hnone
      cases hnone
    · rintro rfl
      exact absurd (fits_toInt word) h

/-- A count as a word. Counts of things in memory always fit. -/
def ofNat (n : Nat) : Int64 := Int64.ofNat n

def add? (a b : Int64) : Option Int64 := ofInt? (a.toInt + b.toInt)

def sub? (a b : Int64) : Option Int64 := ofInt? (a.toInt - b.toInt)

def mul? (a b : Int64) : Option Int64 := ofInt? (a.toInt * b.toInt)

def neg? (a : Int64) : Option Int64 := ofInt? (-a.toInt)

def abs? (a : Int64) : Option Int64 := ofInt? a.toInt.natAbs

/-- Whether there is a quotient toward zero: the divisor is not zero, and the least word
is not divided by minus one. -/
def hasQuotient (a b : Int64) : Bool := b ≠ 0 && !(a == Int64.minValue && b == -1)

def div? (a b : Int64) : Option Int64 := if hasQuotient a b then some (a / b) else none

/-- The remainder that goes with the quotient toward zero. There is none without the
quotient. -/
def mod? (a b : Int64) : Option Int64 := if hasQuotient a b then some (a % b) else none

def wrapped (n : Int) : Id Int64 := Int64.ofInt n

section Plain

variable {m : Type → Type} [Monad m] (plain : Int → m Int64)

/-- The quotient rounded toward minus infinity. The one toward zero is one too large if
the division leaves something and the signs differ. -/
def floorDivWith (a b : Int64) : m (Option Int64) :=
  match div? a b with
  | none => pure none
  | some q =>
    if a % b ≠ 0 ∧ ¬ (a < 0 ↔ b < 0) then some <$> plain (q.toInt - 1) else pure (some q)

/-- The remainder that goes with the quotient rounded toward minus infinity; it has the
sign of the divisor. The one toward zero is moved there by one divisor. -/
def floorModWith (a b : Int64) : m (Option Int64) :=
  match mod? a b with
  | none => pure none
  | some r =>
    if r ≠ 0 ∧ ¬ (r < 0 ↔ b < 0) then some <$> plain (r.toInt + b.toInt) else pure (some r)

/-- A term of a progression: the start and a multiple of the step. -/
def termWith (start step : Int64) (k : Nat) : m Int64 := do
  let offset ← plain (k * step.toInt)
  plain (start.toInt + offset.toInt)

def progressionWith (start step : Int64) (count : Nat) : m (List Int64) :=
  (List.range count).mapM (termWith plain start step)

end Plain

def floorDiv? (a b : Int64) : Option Int64 := Id.run (floorDivWith wrapped a b)

/-- The remainder that goes with it. There is none where the quotient toward zero does
not fit. -/
def floorMod? (a b : Int64) : Option Int64 := Id.run (floorModWith wrapped a b)

/-- A product times a power, by repeated squaring. There is no result as soon as a
product does not fit; the base is not squared for the last factor. -/
def timesPow? (product base : Int64) (exponent : Nat) : Option Int64 :=
  if exponent = 0 then some product
  else if exponent = 1 then mul? product base
  else
    (if exponent % 2 = 1 then mul? product base else some product).bind fun product =>
      (mul? base base).bind fun square => timesPow? product square (exponent / 2)
termination_by exponent

/-- A power with an exponent that is not negative. There is none for an exponent of more
than 32 bits. -/
def pow? (base exponent : Int64) : Option Int64 :=
  let n := exponent.toInt.toNat
  if n < Nat.pow 2 32 then timesPow? 1 base n else none

def text (n : Int64) : String := toString n.toInt

end Scripting.Word64
