/-
# Formats

A format says how a value is written: `[[fill]align][+][0][width][.precision][type]`.
Types are `s` for texts, `d` for whole numbers, `f` and `%` for numbers. A precision
without a type writes a number as `f` and cuts a text. A template is a text with
fields in braces that are replaced by formatted arguments.
-/
import Scripting.Arguments
import Scripting.Number.Digits
import Scripting.Value.Render

namespace Scripting

/-- Where the padding of a value goes; `sign` puts it between a sign and what
follows. -/
inductive Alignment where
  | left | right | center | sign
  deriving DecidableEq, Repr

def Alignment.ofChar? : Char → Option Alignment
  | '<' => some .left
  | '>' => some .right
  | '^' => some .center
  | _ => none

structure FormatSpec where
  fill : Char
  align : Option Alignment
  plus : Bool
  width : Nat
  precision : Option Nat
  kind : Option Char
  deriving DecidableEq, Repr

namespace FormatSpec

/-- Reads a fill and an alignment, an alignment alone, or neither. -/
def readAlignment (cs : List Char) : Char × Option Alignment × List Char :=
  match cs with
  | fill :: mark :: rest =>
    match Alignment.ofChar? mark with
    | some align => (fill, some align, rest)
    | none =>
      match Alignment.ofChar? fill with
      | some align => (' ', some align, mark :: rest)
      | none => (' ', none, cs)
  | [mark] =>
    match Alignment.ofChar? mark with
    | some align => (' ', some align, [])
    | none => (' ', none, cs)
  | [] => (' ', none, [])

def sizeLimit : Nat := Nat.pow 2 64 - 1

/-- Reads digits as a number, or nothing if there are none. Fails on a number beyond
the limit. -/
def readSize (cs : List Char) : Option (Option Nat × List Char) :=
  let digits := cs.takeWhile Char.isDigit
  if digits.isEmpty then some (none, cs)
  else if digitsValue digits ≤ sizeLimit then
    some (some (digitsValue digits), cs.dropWhile Char.isDigit)
  else none

/-- Reads a precision, which needs digits after its point. -/
def readPrecision (cs : List Char) : Option (Option Nat × List Char) :=
  match cs with
  | '.' :: rest =>
    match readSize rest with
    | some (some n, rest) => some (some n, rest)
    | _ => none
  | _ => some (none, cs)

def readMark (mark : Char) : List Char → Bool × List Char
  | c :: rest => if c = mark then (true, rest) else (false, c :: rest)
  | [] => (false, [])

def read? (text : List Char) : Option FormatSpec :=
  let (fill, align, rest) := readAlignment text
  let (plus, rest) := readMark '+' rest
  let (zero, rest) := if align.isNone then readMark '0' rest else (false, rest)
  let fill := if zero then '0' else fill
  let align := if zero then some .sign else align
  match readSize rest with
  | none => none
  | some (width, rest) =>
    match readPrecision rest with
    | none => none
    | some (precision, rest) =>
      match rest with
      | [] => some ⟨fill, align, plus, width.getD 0, precision, none⟩
      | [kind] => some ⟨fill, align, plus, width.getD 0, precision, some kind⟩
      | _ => none

/-- A number's text with a plus in front if one is asked for and there is no
minus. -/
def signed (spec : FormatSpec) (text : String) : String :=
  if spec.plus && text.toList.head? != some '-' then "+" ++ text else text

end FormatSpec

def fixedText (places : Nat) (x : Float) : String :=
  match FloatParts.of x with
  | .nan => "NaN"
  | .infinite negative => if negative then "-inf" else "inf"
  | .finite negative mantissa exponent =>
    (if negative then "-" else "") ++ fixedPlaces places mantissa exponent

/-- How many decimal places a number has if the format does not say. -/
def defaultPlaces : Nat := 6

namespace Heap

/-- A number with a format of type `f`, `%` or none. -/
def formatNumber (spec : FormatSpec) (x : Float) : Option String :=
  let places := spec.precision.getD defaultPlaces
  match spec.kind with
  | none | some 'f' => some (spec.signed (fixedText places x))
  | some '%' => some (spec.signed (fixedText places (x * 100.0) ++ "%"))
  | _ => none

/-- A value in a format, without its padding; nothing if the format is not for its
type. -/
def formatBody (h : Heap) (spec : FormatSpec) (v : Value) : Option String :=
  match v with
  | .str s =>
    if spec.kind = none ∨ spec.kind = some 's' then
      match spec.precision with
      | some count => some (String.ofList (s.toList.take count))
      | none => some s
    else none
  | .int n =>
    if spec.precision = none ∧ (spec.kind = none ∨ spec.kind = some 'd') then
      some (spec.signed (Word64.text n))
    else formatNumber spec (Value.floatOfWord n)
  | .float x =>
    if spec.precision = none ∧ spec.kind = none then some (spec.signed (floatText x))
    else formatNumber spec x
  | v =>
    if spec.kind = none ∧ spec.precision = none ∧ !spec.plus then some (h.display v) else none

end Heap

/-- A text filled up to a width. No text has 2⁶³ bytes: on a machine a padding of such a width fails
where it is built, here it is a list like any other. -/
def padded (fill : Char) (align : Alignment) (width : Nat) (body : List Char) : List Char :=
  let gap := width - body.length
  match align with
  | .left => body ++ List.replicate gap fill
  | .right => List.replicate gap fill ++ body
  | .center => List.replicate (gap / 2) fill ++ body ++ List.replicate (gap - gap / 2) fill
  | .sign =>
    match body with
    | '-' :: rest => '-' :: List.replicate gap fill ++ rest
    | '+' :: rest => '+' :: List.replicate gap fill ++ rest
    | _ => List.replicate gap fill ++ body

/-- Whether values of a type stand on the right by default. -/
def Value.isNumber : Value → Bool
  | .int _ | .float _ => true
  | _ => false

def formatFault (spec : String) (v : Value) : Fault :=
  argumentFault s!"invalid format spec '{spec}' for {v.typeName}"

namespace Heap

def format (h : Heap) (v : Value) (spec : String) : Except Fault String :=
  if spec.isEmpty then .ok (h.display v)
  else
    match FormatSpec.read? spec.toList with
    | none => .error (formatFault spec v)
    | some parts =>
      match h.formatBody parts v with
      | none => .error (formatFault spec v)
      | some body =>
        let align := parts.align.getD (if v.isNumber then .right else .left)
        .ok (String.ofList (padded parts.fill align parts.width body.toList))

end Heap

/-! ### Templates -/

/-- A piece of a template: a character, a field, or the place where the template is
broken. -/
inductive TemplatePiece where
  | char (c : Char)
  | field (text : List Char)
  | broken (message : String)
  deriving DecidableEq, Repr

/-- The pieces of a template. Inside a field, what has been read of it is held in
reverse. Doubled braces stand for themselves outside of fields. -/
def templatePieces : (field : Option (List Char)) → List Char → List TemplatePiece
  | none, [] => []
  | some _, [] => [.broken "unclosed '\x7b' in format string"]
  | some read, c :: rest =>
    if c = '\x7d' then .field read.reverse :: templatePieces none rest
    else templatePieces (some (c :: read)) rest
  | none, '\x7b' :: '\x7b' :: rest => .char '\x7b' :: templatePieces none rest
  | none, '\x7b' :: rest => templatePieces (some []) rest
  | none, '\x7d' :: '\x7d' :: rest => .char '\x7d' :: templatePieces none rest
  | none, '\x7d' :: _ => [.broken "single '\x7d' encountered in format string"]
  | none, c :: rest => .char c :: templatePieces none rest

/-- The number that a field of a template names its argument by: digits, with a plus
or without. -/
def fieldNumber? (field : List Char) : Option Nat :=
  let digits := match field with
    | '+' :: rest => rest
    | _ => field
  if digits.isEmpty || !digits.all Char.isDigit then none
  else if digitsValue digits ≤ FormatSpec.sizeLimit then some (digitsValue digits)
  else none

def templateArgument (args : List Value) (n : Nat) : Except Fault Value :=
  match args[n]? with
  | some v => .ok v
  | none => .error (.of .index s!"format index {n} out of range")

/-- The argument that a field names, and how many fields without a name there have
been then. -/
def fieldArgument (args : List Value) (keywords : Keywords) (unnamed : Nat) (field : List Char) :
    Except Fault (Value × Nat) :=
  if field.isEmpty then (templateArgument args unnamed).map fun v => (v, unnamed + 1)
  else
    match fieldNumber? field with
    | some n => (templateArgument args n).map fun v => (v, unnamed)
    | none =>
      let name := String.ofList field
      match keywords.get? name with
      | some v => .ok (v, unnamed)
      | none => .error (.of .key s!"format key '{name}' not provided")

/-- The name and the format of a field: they are divided by the first colon. -/
def splitField (field : List Char) : List Char × List Char :=
  (field.takeWhile (· != ':'), (field.dropWhile (· != ':')).drop 1)

namespace Heap

/-- The texts of the pieces of a template, with the number of fields without a name
that went before. -/
def fillPieces (h : Heap) (args : List Value) (keywords : Keywords) (unnamed : Nat) :
    List TemplatePiece → Except Fault (List String)
  | [] => .ok []
  | .char c :: rest => (fillPieces h args keywords unnamed rest).map (String.singleton c :: ·)
  | .broken message :: _ => .error (argumentFault message)
  | .field field :: rest => do
    let (name, spec) := splitField field
    let (v, unnamed) ← fieldArgument args keywords unnamed name
    let text ← h.format v (String.ofList spec)
    return text :: (← fillPieces h args keywords unnamed rest)

def fillTemplate (h : Heap) (template : String) (args : List Value) (keywords : Keywords) :
    Except Fault String :=
  (h.fillPieces args keywords 0 (templatePieces none template.toList)).map String.join

end Heap

end Scripting
