/-
# Floats as exact numbers

A finite float is a whole number times a power of two. `FloatParts.of` takes a
float apart into that form, and everything that has to be exact about floats
(truncation, rounding to a whole number, the digits of a float) is computed from
it in whole numbers.
-/

namespace Scripting

/-- A float taken apart: not a number, an infinity, or exactly
`± mantissa * 2 ^ exponent`. -/
inductive FloatParts where
  | nan
  | infinite (negative : Bool)
  | finite (negative : Bool) (mantissa : Nat) (exponent : Int)
  deriving DecidableEq, Repr

/-- The parts of a float, read off its 64 bits: a sign bit, eleven bits of
exponent and 52 bits of fraction. Exponent zero marks the numbers without the
leading one bit. -/
def FloatParts.of (x : Float) : FloatParts :=
  let bits := x.toBits.toNat
  let negative := bits / Nat.pow 2 63 == 1
  let exponent : Nat := bits / Nat.pow 2 52 % Nat.pow 2 11
  let fraction : Nat := bits % Nat.pow 2 52
  if exponent = 2047 then
    if fraction = 0 then .infinite negative else .nan
  else if exponent = 0 then .finite negative fraction (-1074)
  else .finite negative (fraction + Nat.pow 2 52) ((exponent : Int) - 1075)

/-- Which whole number a quotient goes to. -/
inductive Rounding where
  /-- The nearest one toward minus infinity. -/
  | down
  /-- The nearest one toward plus infinity. -/
  | up
  /-- The nearest one; a half goes away from zero. -/
  | halfAway
  /-- The nearest one; a half goes to the even neighbour. -/
  | halfEven
  deriving DecidableEq, Repr

/-- The magnitude of `± num / den` rounded to a whole number. -/
def roundedQuotient (mode : Rounding) (negative : Bool) (num den : Nat) : Nat :=
  let quotient := num / den
  let rest := num % den
  let increase := match mode with
    | .down => negative && rest != 0
    | .up => !negative && rest != 0
    | .halfAway => den ≤ 2 * rest
    | .halfEven => den < 2 * rest || (2 * rest == den && quotient % 2 == 1)
  if increase then quotient + 1 else quotient

/-- `mantissa * 2 ^ exponent` as a fraction of whole numbers. -/
def binaryFraction (mantissa : Nat) (exponent : Int) : Nat × Nat :=
  if 0 ≤ exponent then (mantissa * Nat.pow 2 exponent.toNat, 1)
  else (mantissa, Nat.pow 2 (-exponent).toNat)

/-- The float with the given sign and magnitude. The sign of zero is kept. -/
def signedFloat (negative : Bool) (magnitude : Nat) : Float :=
  if negative then -Float.ofNat magnitude else Float.ofNat magnitude

/-- A float rounded to a whole number, as a float. Infinities and what is not a
number stay as they are, and so does the sign of zero. -/
def floatRounded (mode : Rounding) (x : Float) : Float :=
  match FloatParts.of x with
  | .finite negative mantissa exponent =>
    if 0 ≤ exponent then x
    else
      let (num, den) := binaryFraction mantissa exponent
      signedFloat negative (roundedQuotient mode negative num den)
  | _ => x

/-- A finite float without its fraction, as a whole number. -/
def floatTruncated? (x : Float) : Option Int :=
  match FloatParts.of x with
  | .finite negative mantissa exponent =>
    let (num, den) := binaryFraction mantissa exponent
    let magnitude : Int := (num / den : Nat)
    some (if negative then -magnitude else magnitude)
  | _ => none

def floatIsWhole (x : Float) : Bool :=
  match FloatParts.of x with
  | .finite _ mantissa exponent =>
    let (num, den) := binaryFraction mantissa exponent
    num % den == 0
  | _ => false

/-- A whole number as the nearest float; a half goes to the even neighbour. -/
def floatOfInt (n : Int) : Float := Float.ofInt n

end Scripting
