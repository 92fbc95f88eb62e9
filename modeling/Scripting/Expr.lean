/-
# Expressions

The tree of an expression as the grammar builds it. Every node knows where it
begins; operators, calls and subscripts begin where their left operand does.
-/
import Scripting.Position

namespace Scripting

/-- The operators that work on the values of both operands. -/
inductive BinaryOp where
  | add | sub | mul | div | floorDiv | mod | pow
  | eq | ne | lt | le | gt | ge | isIn | notIn
  deriving DecidableEq, Repr

def BinaryOp.text : BinaryOp → String
  | .add => "+"
  | .sub => "-"
  | .mul => "*"
  | .div => "/"
  | .floorDiv => "//"
  | .mod => "%"
  | .pow => "**"
  | .eq => "=="
  | .ne => "!="
  | .lt => "<"
  | .le => "<="
  | .gt => ">"
  | .ge => ">="
  | .isIn => "in"
  | .notIn => "not in"

/-- The operators that look at their right operand only if the left one leaves the
answer open. -/
inductive LogicOp where
  | and | or
  deriving DecidableEq, Repr

inductive UnaryOp where
  | neg | pos | not
  deriving DecidableEq, Repr

mutual

inductive Expr where
  | int (pos : Position) (n : Int64)
  | float (pos : Position) (x : Float)
  | str (pos : Position) (s : String)
  | bool (pos : Position) (b : Bool)
  | none (pos : Position)
  | name (pos : Position) (name : String)
  | binary (pos : Position) (op : BinaryOp) (left right : Expr)
  | logic (pos : Position) (op : LogicOp) (left right : Expr)
  | unary (pos : Position) (op : UnaryOp) (operand : Expr)
  | conditional (pos : Position) (condition thenValue elseValue : Expr)
  | call (pos : Position) (callee : Expr) (args : List Expr) (keywords : List Keyword)
  | index (pos : Position) (container key : Expr)
  | slice (pos : Position) (container : Expr) (start stop step : Option Expr)
  | member (pos : Position) (object : Expr) (name : String)
  | method (pos : Position) (object : Expr) (name : String) (args : List Expr)
      (keywords : List Keyword)
  | list (pos : Position) (items : List Expr)
  | dict (pos : Position) (entries : List DictEntry)
  | listOf (pos : Position) (item : Expr) (clause : Clause)
  | dictOf (pos : Position) (key value : Expr) (clause : Clause)
  | lambda (pos : Position) (params : List Param) (body : Expr)
  | fstring (pos : Position) (parts : List FStringPart)

structure Keyword where
  name : String
  value : Expr

structure DictEntry where
  key : Expr
  value : Expr

structure Clause where
  target : Target
  iterable : Expr
  condition : Option Expr

/-- A parameter of a function; one with a default may be left out of a call. -/
structure Param where
  name : String
  pos : Position
  default : Option Expr

/-- A piece of an f-string: text, or a field with its conversion and its format. -/
inductive FStringPart where
  | text (s : String)
  | field (value : Expr) (repr : Bool) (spec : Option String)

/-- What a value can be stored in: a name, a subscript, or a group that the value
is spread over. -/
inductive Target where
  | name (name : String)
  | index (container key : Expr)
  | group (targets : List Target)

end

def Expr.pos : Expr → Position
  | .int p _ | .float p _ | .str p _ | .bool p _ | .none p | .name p _ | .binary p ..
  | .logic p .. | .unary p .. | .conditional p .. | .call p .. | .index p .. | .slice p ..
  | .member p .. | .method p .. | .list p _ | .dict p _ | .listOf p .. | .dictOf p ..
  | .lambda p .. | .fstring p _ => p

end Scripting
