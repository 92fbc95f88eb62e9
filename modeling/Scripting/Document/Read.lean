/-
# Reading JSON

A text is one value with blanks around it. Of two entries of an object under one key
the later wins. Containers nest up to `nestingLimit` levels. A whole number that
does not fit in 64 bits is read as a float, and so is one with a point or an
exponent: its first digits, as many as fit in 64 bits, are scaled by a power of ten.
A misread says what is wrong and where, in lines and bytes.
-/
import Scripting.Document
import Scripting.Number.Word

namespace Scripting.Document

inductive Problem where
  | endInValue | endInList | endInObject | endInText
  | expectedColon | expectedListEnd | expectedObjectEnd | expectedWord | expectedValue
  | invalidEscape | invalidNumber | numberOutOfRange | controlCharacter | keyNotText
  | loneSurrogate | trailingComma | trailingCharacters | unfinishedEscape | tooDeep
  deriving DecidableEq, Repr

def Problem.message : Problem → String
  | .endInValue => "EOF while parsing a value"
  | .endInList => "EOF while parsing a list"
  | .endInObject => "EOF while parsing an object"
  | .endInText => "EOF while parsing a string"
  | .expectedColon => "expected `:`"
  | .expectedListEnd => "expected `,` or `]`"
  | .expectedObjectEnd => "expected `,` or `\x7d`"
  | .expectedWord => "expected ident"
  | .expectedValue => "expected value"
  | .invalidEscape => "invalid escape"
  | .invalidNumber => "invalid number"
  | .numberOutOfRange => "number out of range"
  | .controlCharacter => "control character (\\u0000-\\u001F) found while parsing a string"
  | .keyNotText => "key must be a string"
  | .loneSurrogate => "lone leading surrogate in hex escape"
  | .trailingComma => "trailing comma"
  | .trailingCharacters => "trailing characters"
  | .unfinishedEscape => "unexpected end of hex escape"
  | .tooDeep => "recursion limit exceeded"

/-- A problem, seen so many bytes into the rest of a text. -/
structure Misread where
  problem : Problem
  rest : List Char
  ahead : Nat

/-- A problem with the next character, or with the end of the text. -/
def Misread.next (problem : Problem) (rest : List Char) : Misread := ⟨problem, rest, 1⟩

/-- A line, and how many bytes of it have been passed. -/
structure Place where
  line : Nat
  bytes : Nat
  deriving DecidableEq, Repr

def Place.after (p : Place) (c : Char) : Place :=
  if c = '\n' then ⟨p.line + 1, 0⟩ else ⟨p.line, p.bytes + c.utf8Size⟩

/-- The place so many bytes further on, or at the end of the text. -/
def Place.ahead (p : Place) : Nat → List Char → Place
  | _, [] => p
  | bytes, c :: rest =>
    if bytes = 0 then p
    else if bytes < c.utf8Size then { p with bytes := p.bytes + bytes }
    else (p.after c).ahead (bytes - c.utf8Size) rest

def Misread.message (text : List Char) (m : Misread) : String :=
  let passed := text.take (text.length - m.rest.length)
  let place := (passed.foldl Place.after ⟨1, 0⟩).ahead m.ahead m.rest
  s!"{m.problem.message} at line {place.line} column {place.bytes}"

/-- What a reader makes of the front of a text, with the rest. -/
abbrev Reading (α : Type) := Except Misread (α × List Char)

def skipBlanks (cs : List Char) : List Char :=
  cs.dropWhile fun c => c == ' ' || c == '\n' || c == '\t' || c == '\r'

def readWord (d : Document) : List Char → List Char → Reading Document
  | [], cs => .ok (d, cs)
  | _ :: _, [] => .error (.next .endInValue [])
  | w :: word, c :: cs =>
    if c = w then readWord d word cs else .error (.next .expectedWord (c :: cs))

/-! ### Numbers -/

/-- Reads digits onto a number as long as it stays within a limit, and counts
them. -/
def absorb (limit value count : Nat) : List Char → Nat × Nat × List Char
  | [] => (value, count, [])
  | c :: cs =>
    let wider := 10 * value + (c.toNat - '0'.toNat)
    if c.isDigit && wider ≤ limit then absorb limit wider (count + 1) cs else (value, count, c :: cs)

def startsWithDigit : List Char → Bool
  | c :: _ => c.isDigit
  | [] => false

/-- The digits that do not matter, as their number, and what follows. -/
def skipDigits (cs : List Char) : Nat × List Char :=
  ((cs.takeWhile Char.isDigit).length, cs.dropWhile Char.isDigit)

def significandLimit : Nat := Nat.pow 2 64 - 1

def exponentLimit : Nat := Nat.pow 2 31 - 1

def powerOfTen (n : Nat) : Float := Float.ofScientific 1 false n

/-- A significand scaled by a power of ten, unless that is beyond the floats. -/
def scaled? (significand : Nat) (exponent : Int) : Option Float :=
  let x := Float.ofNat significand
  if 0 ≤ exponent then
    if exponent ≤ 308 then
      let y := x * powerOfTen exponent.toNat
      if y.isInf then none else some y
    else if significand = 0 then some x else none
  else
    let places := (-exponent).toNat
    if places ≤ 308 then some (x / powerOfTen places)
    else if places ≤ 616 then some (x / powerOfTen 308 / powerOfTen (places - 308))
    else some 0.0

def signed (negative : Bool) (x : Float) : Float := if negative then -x else x

def readScaled (negative : Bool) (significand : Nat) (exponent : Int) (cs : List Char) :
    Reading Document :=
  match scaled? significand exponent with
  | some x => .ok (.float (signed negative x), cs)
  | none => .error ⟨.numberOutOfRange, cs, 0⟩

def readExponentDigits (negative : Bool) (significand : Nat) (exponent : Int) (down : Bool)
    (cs : List Char) : Reading Document :=
  if cs.isEmpty then .error (.next .endInValue cs)
  else if !startsWithDigit cs then .error (.next .invalidNumber cs)
  else
    let (size, _, rest) := absorb exponentLimit 0 0 cs
    if startsWithDigit rest then
      if significand ≠ 0 && !down then .error ⟨.numberOutOfRange, rest.drop 1, 0⟩
      else .ok (.float (signed negative 0.0), (skipDigits rest).2)
    else
      readScaled negative significand (if down then exponent - size else exponent + size) rest

def readExponent (negative : Bool) (significand : Nat) (exponent : Int) (cs : List Char) :
    Reading Document :=
  match cs with
  | 'e' :: rest | 'E' :: rest =>
    match rest with
    | '+' :: digits => readExponentDigits negative significand exponent false digits
    | '-' :: digits => readExponentDigits negative significand exponent true digits
    | digits => readExponentDigits negative significand exponent false digits
  | _ => readScaled negative significand exponent cs

def readFraction (negative : Bool) (significand : Nat) (exponent : Int) (cs : List Char) :
    Reading Document :=
  if startsWithDigit cs then
    let (significand, count, rest) := absorb significandLimit significand 0 cs
    readExponent negative significand (exponent - count) (skipDigits rest).2
  else if cs.isEmpty then .error (.next .endInValue cs)
  else .error (.next .invalidNumber cs)

/-- A whole number, which is a word if it fits. Minus zero is a float. -/
def wholeNumber (negative : Bool) (n : Nat) : Document :=
  if negative && n = 0 then .float (-0.0)
  else
    match Word64.ofInt? (if negative then -(n : Int) else n) with
    | some word => .int word
    | none => .float (signed negative (Float.ofNat n))

def readNumber (negative : Bool) (cs : List Char) : Reading Document :=
  match cs with
  | [] => .error (.next .endInValue cs)
  | c :: rest =>
    if !c.isDigit then .error (.next .invalidNumber cs)
    else if c = '0' && startsWithDigit rest then .error (.next .invalidNumber rest)
    else
      let (significand, _, rest) := absorb significandLimit 0 0 cs
      let long := startsWithDigit rest
      let (skipped, rest) := skipDigits rest
      match rest with
      | '.' :: digits => readFraction negative significand skipped digits
      | 'e' :: _ | 'E' :: _ => readExponent negative significand skipped rest
      | _ =>
        if long then readScaled negative significand skipped rest
        else .ok (wholeNumber negative significand, rest)

/-! ### Texts -/

def hexValue? (c : Char) : Option Nat :=
  if c.isDigit then some (c.toNat - '0'.toNat)
  else if 'a' ≤ c ∧ c ≤ 'f' then some (c.toNat - 'a'.toNat + 10)
  else if 'A' ≤ c ∧ c ≤ 'F' then some (c.toNat - 'A'.toNat + 10)
  else none

def readHex (cs : List Char) : Except Misread Nat :=
  match (cs.take 4).mapM hexValue? with
  | some [a, b, c, d] => .ok (((a * 16 + b) * 16 + c) * 16 + d)
  | _ =>
    if cs.foldl (fun bytes c => bytes + c.utf8Size) 0 < 4 then .error (.next .endInText [])
    else .error ⟨.invalidEscape, cs, 4⟩

/-- The character for a number in an escape, and how many characters the escape has
after its backslash. Beyond the first 16 bits a character is a pair of escapes. -/
def readUnicode (cs : List Char) : Except Misread (Char × Nat) := do
  let n ← readHex cs
  let rest := cs.drop 4
  if 0xDC00 ≤ n ∧ n ≤ 0xDFFF then throw ⟨.loneSurrogate, rest, 0⟩
  if n < 0xD800 ∨ 0xDBFF < n then return (Char.ofNat n, 5)
  match rest with
  | [] => throw (.next .endInText [])
  | '\\' :: [] => throw (.next .endInText [])
  | '\\' :: 'u' :: digits => do
    let low ← readHex digits
    if low < 0xDC00 ∨ 0xDFFF < low then throw ⟨.loneSurrogate, digits.drop 4, 0⟩
    return (Char.ofNat ((n - 0xD800) * 0x400 + (low - 0xDC00) + 0x10000), 11)
  | '\\' :: rest => throw (.next .unfinishedEscape rest)
  | rest => throw (.next .unfinishedEscape rest)

/-- The character that an escape stands for, and how many characters it has after
its backslash. -/
def readEscape : List Char → Except Misread (Char × Nat)
  | [] => .error (.next .endInText [])
  | '"' :: _ => .ok ('"', 1)
  | '\\' :: _ => .ok ('\\', 1)
  | '/' :: _ => .ok ('/', 1)
  | 'b' :: _ => .ok ('\x08', 1)
  | 'f' :: _ => .ok ('\x0c', 1)
  | 'n' :: _ => .ok ('\n', 1)
  | 'r' :: _ => .ok ('\r', 1)
  | 't' :: _ => .ok ('\t', 1)
  | 'u' :: digits => readUnicode digits
  | cs => .error (.next .invalidEscape cs)

/-- Reads a text up to its closing quote. What has been read is held in reverse;
`skip` characters of an escape are still to be passed over. -/
def readText : (skip : Nat) → (read : List Char) → List Char → Reading String
  | _, _, [] => .error (.next .endInText [])
  | skip + 1, read, _ :: cs => readText skip read cs
  | 0, read, c :: cs =>
    if c = '"' then .ok (String.ofList read.reverse, cs)
    else if c = '\\' then
      match readEscape cs with
      | .ok (escaped, used) => readText used (escaped :: read) cs
      | .error m => .error m
    else if c.toNat < 32 then .error (.next .controlCharacter (c :: cs))
    else readText 0 (c :: read) cs

/-! ### Values -/

/-- Reads the items of a list, from the front of one on; those before it are held in
reverse. Every item takes a character, so the budget is the length of the text. -/
def readItems (read : List Char → Reading Document) : (budget : Nat) → List Document →
    List Char → Reading (List Document)
  | 0, _, cs => .error (.next .endInList cs)
  | budget + 1, items, cs =>
    match read cs with
    | .error m => .error m
    | .ok (item, rest) =>
      match skipBlanks rest with
      | [] => .error (.next .endInList [])
      | ']' :: rest => .ok ((item :: items).reverse, rest)
      | ',' :: rest =>
        match skipBlanks rest with
        | [] => .error (.next .endInValue [])
        | ']' :: rest => .error (.next .trailingComma (']' :: rest))
        | rest => readItems read budget (item :: items) rest
      | rest => .error (.next .expectedListEnd rest)

/-- Reads a key, from its opening quote on, and the colon behind it. -/
def readKey (cs : List Char) : Reading String :=
  match readText 0 [] (cs.drop 1) with
  | .error m => .error m
  | .ok (key, rest) =>
    match skipBlanks rest with
    | [] => .error (.next .endInObject [])
    | ':' :: rest => .ok (key, rest)
    | rest => .error (.next .expectedColon rest)

/-- Reads the entries of an object, from the opening quote of a key on. -/
def readEntries (read : List Char → Reading Document) : (budget : Nat) →
    List (String × Document) → List Char → Reading (List (String × Document))
  | 0, _, cs => .error (.next .endInObject cs)
  | budget + 1, entries, cs =>
    match readKey cs with
    | .error m => .error m
    | .ok (key, rest) =>
      match read rest with
      | .error m => .error m
      | .ok (value, rest) =>
        let entries := Table.put key value entries
        match skipBlanks rest with
        | [] => .error (.next .endInObject [])
        | '\x7d' :: rest => .ok (entries, rest)
        | ',' :: rest =>
          match skipBlanks rest with
          | [] => .error (.next .endInValue [])
          | '"' :: rest => readEntries read budget entries ('"' :: rest)
          | '\x7d' :: rest => .error (.next .trailingComma ('\x7d' :: rest))
          | rest => .error (.next .keyNotText rest)
        | rest => .error (.next .expectedObjectEnd rest)

/-- How many containers may stand inside each other. -/
def nestingLimit : Nat := 127

/-- Reads a value in which containers may nest some levels. -/
def readValue (levels : Nat) (text : List Char) : Reading Document :=
  let cs := skipBlanks text
  match cs with
  | [] => .error (.next .endInValue cs)
  | 'n' :: rest => readWord .null ['u', 'l', 'l'] rest
  | 't' :: rest => readWord (.bool true) ['r', 'u', 'e'] rest
  | 'f' :: rest => readWord (.bool false) ['a', 'l', 's', 'e'] rest
  | '-' :: rest => readNumber true rest
  | '"' :: rest => (readText 0 [] rest).map fun r => (.text r.1, r.2)
  | '[' :: rest =>
    match levels with
    | 0 => .error (.next .tooDeep cs)
    | levels + 1 =>
      match skipBlanks rest with
      | [] => .error (.next .endInList [])
      | ']' :: rest => .ok (.array [], rest)
      | rest =>
        (readItems (readValue levels) rest.length [] rest).map fun r => (.array r.1, r.2)
  | '\x7b' :: rest =>
    match levels with
    | 0 => .error (.next .tooDeep cs)
    | levels + 1 =>
      match skipBlanks rest with
      | [] => .error (.next .endInObject [])
      | '\x7d' :: rest => .ok (.object [], rest)
      | '"' :: rest =>
        (readEntries (readValue levels) (rest.length + 1) [] ('"' :: rest)).map fun r =>
          (.object r.1, r.2)
      | rest => .error (.next .keyNotText rest)
  | c :: _ => if c.isDigit then readNumber false cs else .error (.next .expectedValue cs)

/-- Reads a text that is one value, or says what is wrong with it. -/
def read (text : String) : Except String Document :=
  let cs := text.toList
  match readValue nestingLimit cs with
  | .error m => .error (m.message cs)
  | .ok (d, rest) =>
    match skipBlanks rest with
    | [] => .ok d
    | rest => .error ((Misread.next .trailingCharacters rest).message cs)

end Scripting.Document
