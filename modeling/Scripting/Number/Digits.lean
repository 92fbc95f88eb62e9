/-
# Numbers from written digits

What a list of digit characters stands for, as a whole number, as the digits of a
decimal and as an exponent. Digits may be many: a decimal keeps those that can decide
to which float it is nearest, and an exponent takes in digits only until it is large.
-/
import Scripting.Number.Decimal

namespace Scripting

/-- A whole number with one more digit at its end; a character that is no digit counts
for nothing. -/
def appendDigit (n : Nat) (c : Char) : Nat :=
  if c.isDigit then 10 * n + (c.toNat - '0'.toNat) else n

/-- The value of a run of decimal digits; other characters in it count for nothing. -/
def digitsValue (digits : List Char) : Nat := digits.foldl appendDigit 0

/-- An exponent that has come to this size takes in no more digits. -/
def exponentCap : Nat := Nat.pow 2 16

/-- The size of an exponent that is written with some digits. Those that follow once it
has come to the cap count for nothing, so that `655369` and `65536` are one exponent;
other characters count for nothing either. -/
def exponentSize (digits : List Char) : Nat :=
  digits.foldl (fun n c => if n < exponentCap then appendDigit n c else n) 0

namespace Decimal

/-- How many significant digits are kept. The middle of two neighbouring floats has at
most 767 of them. -/
def keptDigits : Nat := 768

/-- The decimal with some digits, to which floats are near and far as to the number
`digitsValue digits * 10 ^ scale`. It is that number if no digit behind the kept ones
differs from zero; else it lies with it between the same two numbers of so many digits,
a one standing for all the digits behind. -/
def ofDigits (digits : List Char) (scale : Int) : Decimal :=
  let (kept, rest) := (digits.dropWhile (· == '0')).splitAt keptDigits
  if rest.all (· == '0') then ⟨digitsValue kept, scale + rest.length⟩
  else ⟨appendDigit (digitsValue kept) '1', scale + rest.length - 1⟩

end Decimal

end Scripting
