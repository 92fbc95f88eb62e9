/-
# What a host function takes

How many arguments and which keywords a built-in function takes. The keywords are
checked first.
-/
import Scripting.Arguments

namespace Scripting

inductive ArgCount where
  | exactly (count : Nat)
  | between (least most : Nat)
  | any
  deriving DecidableEq, Repr

def ArgCount.check (count : ArgCount) (function : String) (args : List Value) :
    Except Fault Unit :=
  match count with
  | .exactly n =>
    let plural := if n = 1 then "" else "s"
    if args.length = n then .ok ()
    else .error (argumentFault
      s!"{function}() takes {n} argument{plural} but {args.length} were given")
  | .between least most =>
    if least ≤ args.length ∧ args.length ≤ most then .ok ()
    else .error (argumentFault
      s!"{function}() takes from {least} to {most} arguments but {args.length} were given")
  | .any => .ok ()

def numberArgument (function : String) (v : Value) : Except Fault Float :=
  match v.asFloat with
  | .ok x => .ok x
  | .error _ =>
    .error (typeFault s!"{function}() argument must be a number, not {v.typeName}")

namespace Builtin

def argCount : Builtin → ArgCount
  | .len | .repr | .type | .chr | .ord | .abs | .sorted | .reversed | .enumerate | .any | .all =>
    .exactly 1
  | .filter | .append | .extend => .exactly 2
  | .str | .int | .float | .bool | .list | .dict | .exception => .between 0 1
  | .sum | .round => .between 1 2
  | .range => .between 1 3
  | .print | .min | .max | .zip | .map => .any

/-- The keywords that a built-in takes; without a list it takes all. -/
def keywords : Builtin → Option (List String)
  | .print => some ["sep", "end"]
  | .sum | .enumerate => some ["start"]
  | .sorted => some ["key", "reverse"]
  | .dict => none
  | _ => some []

def checkCall (b : Builtin) (args : List Value) (keywords : Keywords) : Except Fault Unit := do
  match b.keywords with
  | some allowed => keywords.only b.text allowed
  | none => .ok ()
  b.argCount.check b.text args

end Builtin

end Scripting
