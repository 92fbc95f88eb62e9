/-
# What can be wrong with a source text

A diagnostic is a complaint and where it arose. The complaints are listed one by
one; each has a code, which also says whether the tokens or the grammar are at
fault, and one wording.
-/
import Scripting.Token

namespace Scripting

/-- The code a complaint is filed under: `L` for tokens, `P` for the grammar. -/
inductive DiagnosticCode where
  | L001 | L002 | L003 | L004 | L005 | P001 | P002 | P003
  deriving DecidableEq, Repr

namespace DiagnosticCode

def text : DiagnosticCode → String
  | .L001 => "L001"
  | .L002 => "L002"
  | .L003 => "L003"
  | .L004 => "L004"
  | .L005 => "L005"
  | .P001 => "P001"
  | .P002 => "P002"
  | .P003 => "P003"

def isLexical : DiagnosticCode → Bool
  | .L001 | .L002 | .L003 | .L004 | .L005 => true
  | .P001 | .P002 | .P003 => false

end DiagnosticCode

/-- What the grammar allows at a place, where it is not one certain token. -/
inductive Expectation where
  | statement | expression | identifier | lineEnd | closingBrace
  deriving DecidableEq, Repr

def Expectation.text : Expectation → String
  | .statement => "statement"
  | .expression => "expression"
  | .identifier => "identifier"
  | .lineEnd => "end of line"
  | .closingBrace => "`\x7d`"

inductive Complaint where
  | unexpectedCharacter (c : Char)
  | loneBang
  | unterminatedString
  | unknownEscape (c : Char)
  | unmatchedDedent
  | integerTooLarge (digits : String)
  | unexpectedToken (wanted : Expectation) (found : Token.Kind)
  | returnOutsideFunction
  | jumpOutsideLoop
  | handlerAfterBare
  | positionalAfterKeyword
  | loneClosingBrace
  | unclosedField
  | unknownConversion (conversion : String)
  | emptyField
  | missingToken (wanted found : Token.Kind)
  | missingHandler (found : Token.Kind)
  | invalidTarget
  | augmentedGroup
  | duplicateParameter (name : String)
  | requiredAfterDefault (name : String)
  | repeatedKeyword (name : String)
  deriving Repr

namespace Complaint

def code : Complaint → DiagnosticCode
  | .unexpectedCharacter _ | .loneBang => .L001
  | .unterminatedString => .L002
  | .unknownEscape _ => .L003
  | .unmatchedDedent => .L004
  | .integerTooLarge _ => .L005
  | .unexpectedToken .. | .returnOutsideFunction | .jumpOutsideLoop | .handlerAfterBare
  | .positionalAfterKeyword | .loneClosingBrace | .unclosedField | .unknownConversion _
  | .emptyField => .P001
  | .missingToken .. | .missingHandler _ => .P002
  | .invalidTarget | .augmentedGroup | .duplicateParameter _ | .requiredAfterDefault _
  | .repeatedKeyword _ => .P003

def message : Complaint → String
  | .unexpectedCharacter c => s!"unexpected character `{c}`"
  | .loneBang => "expected `!=`, bare `!` is not valid (use `not`)"
  | .unterminatedString => "unterminated string literal"
  | .unknownEscape c => s!"unknown escape sequence `\\{c}`"
  | .unmatchedDedent => "unindent does not match any outer indentation level"
  | .integerTooLarge digits => s!"integer literal `{digits}` does not fit in 64 bits"
  | .unexpectedToken wanted found => s!"expected {wanted.text}, found {found.describe}"
  | .returnOutsideFunction => "`return` outside function"
  | .jumpOutsideLoop => "`break` and `continue` are only valid inside a loop"
  | .handlerAfterBare => "a bare `except:` must be the last handler"
  | .positionalAfterKeyword => "positional argument follows keyword argument"
  | .loneClosingBrace => "single `\x7d` is not allowed in an f-string"
  | .unclosedField => "f-string field is missing its closing `\x7d`"
  | .unknownConversion conversion => s!"unknown f-string conversion `!{conversion}`"
  | .emptyField => "empty expression in f-string"
  | .missingToken wanted found => s!"expected {wanted.describe}, found {found.describe}"
  | .missingHandler found => s!"expected `except` or `finally`, found {found.describe}"
  | .invalidTarget => "invalid assignment target (only names and subscripts can be assigned)"
  | .augmentedGroup => "augmented assignment needs a single target"
  | .duplicateParameter name => s!"duplicate parameter `{name}`"
  | .requiredAfterDefault name =>
    s!"parameter `{name}` without a default follows a parameter with one"
  | .repeatedKeyword name => s!"keyword argument `{name}` repeated"

end Complaint

structure Diagnostic where
  complaint : Complaint
  pos : Position
  deriving Repr

namespace Diagnostic

def code (d : Diagnostic) : DiagnosticCode := d.complaint.code

def message (d : Diagnostic) : String := d.complaint.message

def render (d : Diagnostic) : String :=
  s!"[{d.code.text}] {d.pos.render}: {d.message}"

end Diagnostic

end Scripting
