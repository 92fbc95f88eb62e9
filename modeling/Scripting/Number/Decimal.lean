/-
# Decimal digits of a float

`Decimal` is a whole number of digits times a power of ten. Three things are done
with it here: the decimal with the fewest digits that still reads back as a given
float (`shortest`), a float rounded to a fixed number of decimal places
(`fixedPlaces`), and reading a decimal as the nearest float (`Decimal.toFloat`).
-/
import Scripting.Number.Binary

namespace Scripting

/-- The number `digits * 10 ^ scale`. -/
structure Decimal where
  digits : Nat
  scale : Int
  deriving DecidableEq, Repr

namespace Decimal

def digitCount (n : Nat) : Nat := (Nat.toDigits 10 n).length

/-- The same number without zeros at the end of its digits; `fuel` bounds how
many are taken away. -/
def trimZeros : Nat → Nat → Int → Decimal
  | 0, digits, scale => ⟨digits, scale⟩
  | fuel + 1, digits, scale =>
    if digits % 10 = 0 ∧ digits ≠ 0 then trimZeros fuel (digits / 10) (scale + 1)
    else ⟨digits, scale⟩

/-- The nearest float. A number beyond the largest float is an infinity, one
below half the least float is zero. The two bounds in front keep the powers of
ten small. -/
def toFloat (d : Decimal) : Float :=
  let magnitude := (digitCount d.digits : Int) + d.scale
  if d.digits = 0 ∨ magnitude < -330 then 0.0
  else if 330 < magnitude then Float.ofBits 0x7FF0000000000000
  else Float.ofScientific d.digits (d.scale < 0) d.scale.natAbs

def positional (d : Decimal) : String :=
  let digits := Nat.toDigits 10 d.digits
  let point := (digits.length : Int) + d.scale
  if 0 ≤ d.scale then String.ofList (digits ++ List.replicate d.scale.toNat '0')
  else if 0 < point then
    String.ofList (digits.take point.toNat ++ '.' :: digits.drop point.toNat)
  else
    String.ofList ('0' :: '.' :: (List.replicate (-point).toNat '0' ++ digits))

end Decimal

/-- Where a decimal goes that lies half way between two candidates. -/
inductive Tie where
  | up
  | even
  deriving DecidableEq, Repr

/-- The decimals that read back as `mantissa * 2 ^ exponent`: an interval, in
quarters of the last binary place. Its ends belong to it when the mantissa is
even. Below a power of two the neighbour is half as far away. -/
structure ReadBack where
  low : Nat
  value : Nat
  high : Nat
  endsIncluded : Bool

/-- The interval of the decimals that read back as a float. -/
def ReadBack.of (mantissa : Nat) (exponent : Int) : ReadBack where
  low := 4 * mantissa - (if mantissa = Nat.pow 2 52 ∧ -1074 < exponent then 1 else 2)
  value := 4 * mantissa
  high := 4 * mantissa + 2
  endsIncluded := mantissa % 2 == 0

/-- The one or two multiples of `den / num` next to the value are tried; `num` and
`den` are one quarter of a binary place over one step of the decimal grid. -/
def ReadBack.onGrid (r : ReadBack) (tie : Tie) (num den : Nat) : Option Nat :=
  let below := r.value * num / den
  let above := below + 1
  let inside (candidate : Nat) : Bool :=
    if r.endsIncluded then r.low * num ≤ candidate * den && candidate * den ≤ r.high * num
    else r.low * num < candidate * den && candidate * den < r.high * num
  let distanceBelow := r.value * num - below * den
  let distanceAbove := above * den - r.value * num
  match inside below, inside above with
  | true, true =>
    if distanceBelow < distanceAbove then some below
    else if distanceAbove < distanceBelow then some above
    else match tie with
      | .up => some above
      | .even => some (if below % 2 = 0 then below else above)
  | true, false => some below
  | false, true => some above
  | false, false => none

/-- The power of ten of a positive number's first digit. Numbers below one are
scaled up first, so that they have digits to count. -/
def leadingPower (mantissa : Nat) (exponent : Int) : Int :=
  if 0 ≤ exponent then (Decimal.digitCount (mantissa * Nat.pow 2 exponent.toNat) : Int) - 1
  else
    (Decimal.digitCount (mantissa * Nat.pow 10 330 / Nat.pow 2 (-exponent).toNat) : Int) - 331

/-- The decimal with the fewest digits that reads back as
`mantissa * 2 ^ exponent`, and of those the nearest. Seventeen digits always
suffice. -/
def shortest (tie : Tie) (mantissa : Nat) (exponent : Int) : Decimal :=
  if mantissa = 0 then ⟨0, 0⟩
  else
    let range := ReadBack.of mantissa exponent
    let leading := leadingPower mantissa exponent
    let quarter := exponent - 2
    let twos := Nat.pow 2 quarter.toNat
    let halves := Nat.pow 2 (-quarter).toNat
    let withDigits (count : Nat) : Option Decimal :=
      let scale := leading - count
      (range.onGrid tie (twos * Nat.pow 10 (-scale).toNat) (halves * Nat.pow 10 scale.toNat)).map
        fun digits => Decimal.trimZeros 20 digits scale
    ((List.range 18).findSome? withDigits).getD ⟨0, 0⟩

/-- The digits of `mantissa * 2 ^ exponent` rounded to `places` decimal places,
with exactly that many digits after the point. A half goes to the even neighbour. -/
def fixedPlaces (places mantissa : Nat) (exponent : Int) : String :=
  let (num, den) := binaryFraction mantissa exponent
  let scaled := roundedQuotient .halfEven false (num * Nat.pow 10 places) den
  let digits := Nat.toDigits 10 scaled
  let padded := List.replicate (places + 1 - digits.length) '0' ++ digits
  let whole := padded.take (padded.length - places)
  if places = 0 then String.ofList whole
  else String.ofList (whole ++ '.' :: padded.drop (padded.length - places))

end Scripting
