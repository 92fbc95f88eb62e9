/-
# The token at the front of a text

`scanToken` looks at a character that begins neither blank space nor a comment
and says which token stands there and how far it reaches, or what is wrong. It
never looks at positions: lengths and offsets count characters from the front.
-/
import Scripting.Diagnostic
import Scripting.Number.Digits

namespace Scripting

/-- What stands at the front of a text. The length `more` counts the characters
behind the first, so that every scan takes at least one. The offset of an error
counts from the first character. -/
inductive Scan where
  | token (kind : Token.Kind) (more : Nat)
  | error (complaint : Complaint) (offset more : Nat)

def isNameStart (c : Char) : Bool := c.isAlpha || c == '_'

def isNameContinue (c : Char) : Bool := c.isAlphanum || c == '_'

/-- The two-character operators that begin with a given character. -/
def longSymbol? : Char → Char → Option Symbol
  | '+', '=' => some .plusAssign
  | '-', '=' => some .minusAssign
  | '%', '=' => some .percentAssign
  | '*', '*' => some .starStar
  | '*', '=' => some .starAssign
  | '/', '/' => some .slashSlash
  | '/', '=' => some .slashAssign
  | '=', '=' => some .equal
  | '<', '=' => some .lessEqual
  | '>', '=' => some .greaterEqual
  | '!', '=' => some .notEqual
  | _, _ => none

def shortSymbol? : Char → Option Symbol
  | '+' => some .plus
  | '-' => some .minus
  | '%' => some .percent
  | '*' => some .star
  | '/' => some .slash
  | '=' => some .assign
  | '<' => some .less
  | '>' => some .greater
  | ':' => some .colon
  | ',' => some .comma
  | '.' => some .dot
  | '(' => some .leftParen
  | ')' => some .rightParen
  | '[' => some .leftBracket
  | ']' => some .rightBracket
  | '\x7b' => some .leftBrace
  | '\x7d' => some .rightBrace
  | _ => none

def scanSymbol? (first : Char) (rest : List Char) : Option (Symbol × Nat) :=
  match rest.head?.bind (longSymbol? first) with
  | some s => some (s, 1)
  | none => (shortSymbol? first).map fun s => (s, 0)

/-- A number literal in pieces: the digits before the point, the point and the
digits behind it, the exponent with its letter and sign. Each piece may be empty. -/
structure NumberText where
  whole : List Char
  fraction : List Char
  exponent : List Char

namespace NumberText

def text (n : NumberText) : List Char := n.whole ++ n.fraction ++ n.exponent

def isFloat (n : NumberText) : Bool := !n.fraction.isEmpty || !n.exponent.isEmpty

/-- The digits that may be followed by an exponent: a letter, perhaps a sign, and
at least one digit. -/
def exponentPart : List Char → List Char
  | e :: c :: rest =>
    if e == 'e' || e == 'E' then
      if c.isDigit then e :: c :: rest.takeWhile Char.isDigit
      else if (c == '+' || c == '-') && (rest.head?.any Char.isDigit) then
        e :: c :: rest.takeWhile Char.isDigit
      else []
    else []
  | _ => []

/-- The point and the digits behind it, if the text begins so. -/
def fractionPart : List Char → List Char
  | '.' :: c :: rest => if c.isDigit then '.' :: c :: rest.takeWhile Char.isDigit else []
  | _ => []

/-- The number literal at the front of a text. Underscores may stand between the
digits before the point; a literal that begins with the point may have them
behind it. -/
def read : List Char → NumberText
  | '.' :: rest =>
    let digits := rest.takeWhile fun c => c.isDigit || c == '_'
    ⟨[], '.' :: digits, exponentPart (rest.drop digits.length)⟩
  | text =>
    let whole := text.takeWhile fun c => c.isDigit || c == '_'
    let rest := text.drop whole.length
    let fraction := fractionPart rest
    ⟨whole, fraction, exponentPart (rest.drop fraction.length)⟩

def exponentValue (n : NumberText) : Int :=
  let size : Int := exponentSize n.exponent
  if n.exponent.contains '-' then -size else size

def decimal (n : NumberText) : Decimal :=
  .ofDigits ((n.whole ++ n.fraction).filter Char.isDigit)
    (n.exponentValue - n.fraction.countP Char.isDigit)

end NumberText

/-- The number literal at the front of a text. A whole number has to fit in 64
bits; a float takes the nearest value. -/
def scanNumber (text : List Char) : Scan :=
  let number := NumberText.read text
  let more := number.text.length - 1
  if number.isFloat then .token (.float number.decimal.toFloat) more
  else
    let value := digitsValue number.whole
    if value < Nat.pow 2 63 then .token (.int (Int64.ofNat value)) more
    else
      let digits := String.ofList (number.text.filter fun c => c != '_')
      .error (.integerTooLarge digits) 0 more

def escaped? : Char → Option Char
  | 'n' => some '\n'
  | 't' => some '\t'
  | 'r' => some '\r'
  | '0' => some '\x00'
  | '"' => some '"'
  | '\'' => some '\''
  | '\\' => some '\\'
  | _ => none

/-- The first byte of a character's UTF-8 form, as a character. -/
def leadByte (c : Char) : Char :=
  let n := c.toNat
  if n < 0x80 then c
  else if n < 0x800 then Char.ofNat (0xC0 + n / 0x40)
  else if n < 0x10000 then Char.ofNat (0xE0 + n / 0x1000)
  else Char.ofNat (0xF0 + n / 0x40000)

/-- A string body read up to its closing quote, or as far as it goes. Lengths
count from behind the opening quote; `unknown` is the first escape that stands
for nothing. -/
inductive StringScan where
  | closed (text : List Char) (unknown : Option (Char × Nat)) (length : Nat)
  | unterminated (length : Nat)

/-- Reads a string body. It ends at the quote it began with; a newline or the end
of the text before that leaves it unterminated, unless a backslash stands in
front of the newline. `seen` counts the characters read, and `text` holds the
contents so far, the last character first. -/
def scanString (quote : Char) (seen : Nat) (text : List Char)
    (unknown : Option (Char × Nat)) : List Char → StringScan
  | [] => .unterminated seen
  | '\n' :: _ => .unterminated seen
  | ['\\'] => .unterminated (seen + 1)
  | '\\' :: e :: rest =>
    match escaped? e with
    | some c => scanString quote (seen + 2) (c :: text) unknown rest
    | none =>
      scanString quote (seen + 2) text (unknown.orElse fun _ => some (e, seen + 1)) rest
  | c :: rest =>
    if c = quote then .closed text.reverse unknown (seen + 1)
    else scanString quote (seen + 1) (c :: text) unknown rest

/-- A string literal whose opening quote is the character number `opening` of the
token. -/
def scanQuoted (quote : Char) (opening : Nat) (kind : String → Token.Kind)
    (body : List Char) : Scan :=
  match scanString quote 0 [] none body with
  | .closed text none length => .token (kind (String.ofList text)) (opening + length)
  | .closed _ (some (e, offset)) length =>
    .error (.unknownEscape (leadByte e)) (opening + 1 + offset) (opening + length)
  | .unterminated length => .error .unterminatedString 0 (opening + length)

def isQuote (c : Char) : Bool := c == '"' || c == '\''

/-- The token at the front of a text, given by its first character and the rest. -/
def scanToken (first : Char) (rest : List Char) : Scan :=
  let following := rest.headD ' '
  if first == '.' && following.isDigit then scanNumber (first :: rest)
  else match scanSymbol? first rest with
  | some (s, more) => .token (.symbol s) more
  | none =>
    if first == '!' then .error .loneBang 0 0
    else if isQuote first then scanQuoted first 0 .str rest
    else if (first == 'f' || first == 'F') && isQuote following then
      scanQuoted following 1 .fstr rest.tail
    else if first.isDigit then scanNumber (first :: rest)
    else if isNameStart first then
      let name := first :: rest.takeWhile isNameContinue
      .token (Token.Kind.ofWord (String.ofList name)) (name.length - 1)
    else .error (.unexpectedCharacter first) 0 0

end Scripting
