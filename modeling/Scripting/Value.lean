/-
# Values

Numbers, texts and the like are values by themselves. Lists, dicts and functions
are held by reference: two values can refer to the same list, and a change through
one is seen through the other. What the references stand for is in the `Heap`.
-/
import Scripting.Host
import Scripting.Stmt

namespace Scripting

structure ListRef where
  id : Nat
  deriving DecidableEq, Repr

structure DictRef where
  id : Nat
  deriving DecidableEq, Repr

structure FunctionRef where
  id : Nat
  deriving DecidableEq, Repr

structure ScopeRef where
  id : Nat
  deriving DecidableEq, Repr

/-- What a script computes with. -/
inductive Value where
  | none
  | bool (b : Bool)
  | int (n : Int64)
  | float (x : Float)
  | str (s : String)
  | list (r : ListRef)
  | dict (r : DictRef)
  | function (r : FunctionRef)
  | error (message : String)
  deriving Repr, Inhabited

/-- A parameter of a function with the value of its default. -/
structure ParamSlot where
  name : String
  default : Option Value

/-- A function written in the language, with the scope it was defined in. -/
structure Closure where
  name : String
  params : List ParamSlot
  body : List Stmt
  scope : ScopeRef

inductive Callable where
  | script (closure : Closure)
  | host (f : HostFunction)

def Callable.name : Callable → String
  | .script closure => closure.name
  | .host f => f.name

namespace Value

def typeName : Value → String
  | .none => "NoneType"
  | .bool _ => "bool"
  | .int _ => "int"
  | .float _ => "float"
  | .str _ => "str"
  | .list _ => "list"
  | .dict _ => "dict"
  | .function _ => "function"
  | .error _ => "error"

def isNone : Value → Bool
  | .none => true
  | _ => false

def isError : Value → Bool
  | .error _ => true
  | _ => false

def isFunction : Value → Bool
  | .function _ => true
  | _ => false

def ofNat (n : Nat) : Value := .int (Int64.ofNat n)

def ofChars (text : List Char) : Value := .str (String.ofList text)

end Value

end Scripting
