/-
# The pieces of an f-string

An f-string's text is split into literal text and fields before any field is read
as an expression. Two braces in a row stand for one; a single one opens a field,
which reaches to the brace that closes it outside every bracket and quote of its
own. A field is an expression, then perhaps `!` and a conversion, then perhaps `:`
and a format.
-/
import Scripting.Diagnostic

namespace Scripting

/-- Where a scan of a field stands: how many brackets are open, and in which quote. -/
structure FieldScan where
  depth : Nat
  quote : Option Char

namespace FieldScan

def start : FieldScan := ⟨0, none⟩

/-- Passes over one character, and says whether it stands outside all brackets and
quotes. -/
def feed (s : FieldScan) (c : Char) : FieldScan × Bool :=
  match s.quote with
  | some q => if c = q then ({ s with quote := none }, false) else (s, false)
  | none =>
    if c = '\'' ∨ c = '"' then ({ s with quote := some c }, false)
    else if c = '(' ∨ c = '[' ∨ c = '\x7b' then ({ s with depth := s.depth + 1 }, false)
    else if (c = ')' ∨ c = ']' ∨ c = '\x7d') ∧ 0 < s.depth then
      ({ s with depth := s.depth - 1 }, false)
    else (s, s.depth == 0)

end FieldScan

/-- A piece of an f-string as it is written. -/
inductive Piece where
  | text (s : List Char)
  | field (source : List Char)
  deriving DecidableEq, Repr

namespace Piece

/-- What is being read: literal text, or a field and how far it has come. The
characters so far stand with the last one first. -/
inductive Mode where
  | text (read : List Char)
  | field (read : List Char) (scan : FieldScan)

/-- Literal text as a piece; no text makes no piece. -/
def literal (read : List Char) : List Piece :=
  if read.isEmpty then [] else [.text read.reverse]

/-- The pieces of an f-string up to its end, or up to what is wrong with it. -/
def splitFrom : Mode → List Char → List Piece × Option Complaint
  | .text read, [] => (literal read, none)
  | .text read, '\x7b' :: '\x7b' :: rest => splitFrom (.text ('\x7b' :: read)) rest
  | .text read, '\x7d' :: '\x7d' :: rest => splitFrom (.text ('\x7d' :: read)) rest
  | .text read, c :: rest =>
    if c = '\x7b' then
      let (pieces, wrong) := splitFrom (.field [] .start) rest
      (literal read ++ pieces, wrong)
    else if c = '\x7d' then ([], some .loneClosingBrace)
    else splitFrom (.text (c :: read)) rest
  | .field _ _, [] => ([], some .unclosedField)
  | .field read scan, c :: rest =>
    let (scan, outside) := scan.feed c
    if outside ∧ c = '\x7d' then
      let (pieces, wrong) := splitFrom (.text []) rest
      (.field read.reverse :: pieces, wrong)
    else splitFrom (.field (c :: read) scan) rest

/-- The pieces of an f-string up to its end, or up to what is wrong with it. -/
def split (text : List Char) : List Piece × Option Complaint := splitFrom (.text []) text

end Piece

/-- A field in its three parts. -/
structure FieldText where
  source : List Char
  conversion : Option (List Char)
  spec : Option (List Char)
  deriving DecidableEq, Repr

namespace FieldText

/-- What stands behind a text's first colon, and what in front of it. -/
def atColon (text : List Char) : List Char × Option (List Char) :=
  match text.dropWhile fun c => c != ':' with
  | [] => (text, none)
  | _ :: spec => (text.takeWhile fun c => c != ':', some spec)

/-- Splits a field at the first `!` that does not begin `!=`, or at the first `:`,
outside all brackets and quotes. -/
def splitFrom (scan : FieldScan) (read : List Char) : List Char → FieldText
  | [] => ⟨read.reverse, none, none⟩
  | c :: rest =>
    let (scan, outside) := scan.feed c
    if outside ∧ c = '!' ∧ rest.head? ≠ some '=' then
      let (conversion, spec) := atColon rest
      ⟨read.reverse, some conversion, spec⟩
    else if outside ∧ c = ':' then ⟨read.reverse, none, some rest⟩
    else splitFrom scan (c :: read) rest

def split (field : List Char) : FieldText := splitFrom .start [] field

end FieldText

end Scripting
