/-
# Numbers written as texts

A whole number is digits with a sign or without. A float has digits with a point
among or around them and an exponent, or is a word for infinity or for what is no
number; the words are read in either case.
-/
import Scripting.Number.Digits
import Scripting.Number.Word

namespace Scripting.Text

/-- Whether a text has a minus in front, and the text without its sign. -/
def splitSign : List Char → Bool × List Char
  | '-' :: rest => (true, rest)
  | '+' :: rest => (false, rest)
  | cs => (false, cs)

/-- The whole number that a text is. It has to fit in 64 bits, so it has no more than 19
digits behind the zeros in front. -/
def wholeNumber? (cs : List Char) : Option Int64 :=
  let (negative, digits) := splitSign cs
  let significant := digits.dropWhile (· == '0')
  if digits.isEmpty || !digits.all Char.isDigit || 19 < significant.length then none
  else
    let n : Int := digitsValue significant
    Word64.ofInt? (if negative then -n else n)

/-- The exponent behind the digits of a float; zero if there is none. -/
def exponent? : List Char → Option Int
  | [] => some 0
  | mark :: rest =>
    if mark != 'e' && mark != 'E' then none
    else
      let (negative, digits) := splitSign rest
      if digits.isEmpty || !digits.all Char.isDigit then none
      else
        let n : Int := exponentSize digits
        some (if negative then -n else n)

def decimal? (cs : List Char) : Option Decimal :=
  let whole := cs.takeWhile Char.isDigit
  let rest := cs.dropWhile Char.isDigit
  let (fraction, rest) := match rest with
    | '.' :: rest => (rest.takeWhile Char.isDigit, rest.dropWhile Char.isDigit)
    | _ => ([], rest)
  if whole.isEmpty && fraction.isEmpty then none
  else (exponent? rest).map fun exponent =>
    .ofDigits (whole ++ fraction) (exponent - fraction.length)

def floatWord? (cs : List Char) : Option Float :=
  let word := String.ofList (cs.map Char.toLower)
  if word == "inf" || word == "infinity" then some (Float.ofBits 0x7FF0000000000000)
  else if word == "nan" then some (Float.ofBits 0x7FF8000000000000)
  else none

def floatNumber? (cs : List Char) : Option Float :=
  let (negative, rest) := splitSign cs
  ((floatWord? rest).or ((decimal? rest).map Decimal.toFloat)).map fun x =>
    if negative then -x else x

end Scripting.Text
