/-
# Writing JSON

A document is written on one line without blanks, or with every item on a line of
its own, indented by a number of blanks a level. A float has the fewest digits that
read back; far from one it has an exponent.
-/
import Scripting.Document
import Scripting.Number.Decimal
import Scripting.Number.Word

namespace Scripting.Document

/-- The digits of a positive decimal. An exponent, with its sign, is used where the
point would stand more than sixteen digits to the right or before more than four
zeros. -/
def floatDigits (d : Decimal) : String :=
  let digits := Nat.toDigits 10 d.digits
  let point := (digits.length : Int) + d.scale
  if 0 ≤ d.scale ∧ point ≤ 16 then d.positional ++ ".0"
  else if -5 < point ∧ point ≤ 16 then d.positional
  else
    let fraction := if digits.length = 1 then [] else '.' :: digits.drop 1
    let sign := if 0 < point then "+" else ""
    String.ofList (digits.take 1 ++ fraction) ++ s!"e{sign}{point - 1}"

def floatNumber (x : Float) : String :=
  match FloatParts.of x with
  | .finite negative mantissa exponent =>
    (if negative then "-" else "") ++
      if mantissa = 0 then "0.0" else floatDigits (shortest .even mantissa exponent)
  | _ => "null"

def hexDigit (n : Nat) : Char := Nat.digitChar n

/-- A character of a text in quotes: quotes, backslashes and control characters are
escaped. -/
def quotedTextChar (c : Char) : List Char :=
  match c with
  | '"' => ['\\', '"']
  | '\\' => ['\\', '\\']
  | '\n' => ['\\', 'n']
  | '\r' => ['\\', 'r']
  | '\t' => ['\\', 't']
  | '\x08' => ['\\', 'b']
  | '\x0c' => ['\\', 'f']
  | c =>
    if c.toNat < 32 then
      ['\\', 'u', '0', '0', hexDigit (c.toNat / 16), hexDigit (c.toNat % 16)]
    else [c]

def quotedText (s : String) : String :=
  String.ofList ('"' :: s.toList.flatMap quotedTextChar ++ ['"'])

/-- How documents are laid out: on one line, or with so many blanks a level. -/
inductive Layout where
  | compact
  | indented (width : Nat)
  deriving DecidableEq, Repr

/-- The break before an item that stands some levels deep. -/
def Layout.lineBreak : Layout → Nat → String
  | .compact, _ => ""
  | .indented width, level => "\n" ++ String.ofList (List.replicate (width * level) ' ')

def Layout.colon : Layout → String
  | .compact => ":"
  | .indented _ => ": "

def enclose (layout : Layout) (level : Nat) (opening closing : String) (items : List String) :
    String :=
  if items.isEmpty then opening ++ closing
  else
    let inner := layout.lineBreak (level + 1)
    opening ++ inner ++ String.intercalate ("," ++ inner) items ++ layout.lineBreak level ++ closing

mutual

def writeAt (layout : Layout) (level : Nat) : Document → String
  | .null => "null"
  | .bool b => if b then "true" else "false"
  | .int n => Word64.text n
  | .float x => floatNumber x
  | .text s => quotedText s
  | .array items => enclose layout level "[" "]" (writeItems layout (level + 1) items)
  | .object entries =>
    enclose layout level "\x7b" "\x7d" (writeEntries layout (level + 1) entries)

def writeItems (layout : Layout) (level : Nat) : List Document → List String
  | [] => []
  | d :: rest => writeAt layout level d :: writeItems layout level rest

def writeEntries (layout : Layout) (level : Nat) : List (String × Document) → List String
  | [] => []
  | (key, d) :: rest =>
    (quotedText key ++ layout.colon ++ writeAt layout level d) :: writeEntries layout level rest

end

def write (layout : Layout) (d : Document) : String := writeAt layout 0 d

end Scripting.Document
