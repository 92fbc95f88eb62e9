/-
# Tokens

A source text is a sequence of tokens: literals, names, reserved words, symbols,
and layout tokens (`newline`, `indent`, `dedent`) that carry the block structure.
Every token knows how it is named in a diagnostic and which classes it is in.
-/
import Scripting.Number.Decimal
import Scripting.Position

namespace Scripting

inductive Word where
  | true_ | false_ | none_ | if_ | elif_ | else_ | for_ | while_ | in_ | def_ | return_
  | import_ | and_ | or_ | not_ | pass_ | break_ | continue_ | try_ | except_ | finally_
  | raise_ | as_ | lambda_
  deriving DecidableEq, Repr

inductive Symbol where
  | plus | minus | star | starStar | slash | slashSlash | percent | assign | plusAssign
  | minusAssign | starAssign | slashAssign | percentAssign | equal | notEqual | less
  | lessEqual | greater | greaterEqual | colon | comma | dot | leftParen | rightParen
  | leftBrace | rightBrace | leftBracket | rightBracket
  deriving DecidableEq, Repr

namespace Word

def all : List Word :=
  [.true_, .false_, .none_, .if_, .elif_, .else_, .for_, .while_, .in_, .def_, .return_,
   .import_, .and_, .or_, .not_, .pass_, .break_, .continue_, .try_, .except_, .finally_,
   .raise_, .as_, .lambda_]

def text : Word → String
  | .true_ => "True"
  | .false_ => "False"
  | .none_ => "None"
  | .if_ => "if"
  | .elif_ => "elif"
  | .else_ => "else"
  | .for_ => "for"
  | .while_ => "while"
  | .in_ => "in"
  | .def_ => "def"
  | .return_ => "return"
  | .import_ => "import"
  | .and_ => "and"
  | .or_ => "or"
  | .not_ => "not"
  | .pass_ => "pass"
  | .break_ => "break"
  | .continue_ => "continue"
  | .try_ => "try"
  | .except_ => "except"
  | .finally_ => "finally"
  | .raise_ => "raise"
  | .as_ => "as"
  | .lambda_ => "lambda"

def ofText? (s : String) : Option Word := all.find? fun w => w.text == s

def isConstant : Word → Bool
  | .true_ | .false_ | .none_ => true
  | _ => false

end Word

namespace Symbol

def text : Symbol → String
  | .plus => "+"
  | .minus => "-"
  | .star => "*"
  | .starStar => "**"
  | .slash => "/"
  | .slashSlash => "//"
  | .percent => "%"
  | .assign => "="
  | .plusAssign => "+="
  | .minusAssign => "-="
  | .starAssign => "*="
  | .slashAssign => "/="
  | .percentAssign => "%="
  | .equal => "=="
  | .notEqual => "!="
  | .less => "<"
  | .lessEqual => "<="
  | .greater => ">"
  | .greaterEqual => ">="
  | .colon => ":"
  | .comma => ","
  | .dot => "."
  | .leftParen => "("
  | .rightParen => ")"
  | .leftBrace => "\x7b"
  | .rightBrace => "\x7d"
  | .leftBracket => "["
  | .rightBracket => "]"

def isArithmetic : Symbol → Bool
  | .plus | .minus | .star | .starStar | .slash | .slashSlash | .percent => true
  | _ => false

def isComparison : Symbol → Bool
  | .equal | .notEqual | .less | .lessEqual | .greater | .greaterEqual => true
  | _ => false

def isAugmentedAssign : Symbol → Bool
  | .plusAssign | .minusAssign | .starAssign | .slashAssign | .percentAssign => true
  | _ => false

/-- The bracket depth behind a symbol: an opening bracket raises it, a closing one
lowers it, and it never goes below zero. -/
def depthAfter (depth : Nat) : Symbol → Nat
  | .leftParen | .leftBracket | .leftBrace => depth + 1
  | .rightParen | .rightBracket | .rightBrace => depth - 1
  | _ => depth

end Symbol

/-- What a token is. The text of a string or f-string literal has its escapes
replaced; the fields of an f-string still stand in it. -/
inductive Token.Kind where
  | int (n : Int64)
  | float (x : Float)
  | str (text : String)
  | fstr (text : String)
  | name (text : String)
  | word (w : Word)
  | symbol (s : Symbol)
  | newline
  | indent
  | dedent
  | eof
  deriving Repr

structure Token where
  kind : Token.Kind
  pos : Position
  deriving Repr

/-- A float in a diagnostic: the fewest digits that read back, never an exponent,
and nothing behind a whole number. -/
def plainFloatText (x : Float) : String :=
  match FloatParts.of x with
  | .nan => "NaN"
  | .infinite negative => if negative then "-inf" else "inf"
  | .finite negative mantissa exponent =>
    (if negative then "-" else "") ++ (shortest .up mantissa exponent).positional

namespace Token.Kind

def describe : Token.Kind → String
  | .int n => s!"integer `{n.toInt}`"
  | .float x => s!"float `{plainFloatText x}`"
  | .str _ => "string literal"
  | .fstr _ => "f-string literal"
  | .name text => s!"identifier `{text}`"
  | .word w => s!"`{w.text}`"
  | .symbol s => s!"`{s.text}`"
  | .newline => "end of line"
  | .indent => "indent"
  | .dedent => "dedent"
  | .eof => "end of input"

def isLiteral : Token.Kind → Bool
  | .int _ | .float _ | .str _ | .fstr _ => true
  | .word w => w.isConstant
  | _ => false

def isArithmetic : Token.Kind → Bool
  | .symbol s => s.isArithmetic
  | _ => false

def isComparison : Token.Kind → Bool
  | .symbol s => s.isComparison
  | _ => false

def isAugmentedAssign : Token.Kind → Bool
  | .symbol s => s.isAugmentedAssign
  | _ => false

def isLayout : Token.Kind → Bool
  | .newline | .indent | .dedent => true
  | _ => false

def isKeyword : Token.Kind → Bool
  | .word w => !w.isConstant
  | _ => false

/-- A spelled word: the reserved word if it is one, and a name otherwise. -/
def ofWord (text : String) : Token.Kind :=
  match Word.ofText? text with
  | some w => .word w
  | none => .name text

end Token.Kind

end Scripting
