/-
# Built-ins on numbers
-/
import Scripting.Builtin.Signature
import Scripting.Text.Numeral
import Scripting.Text.Space
import Scripting.Value.Order
import Scripting.Value.Render
import Scripting.Value.Slice

namespace Scripting

/-- The longest list that `range` makes. -/
def rangeLimit : Nat := 10000000

def rangeItems (start stop step : Int64) : Except Fault (List Value) :=
  if step = 0 then .error (argumentFault "range() arg 3 must not be zero")
  else
    let count := stepCount start.toInt stop.toInt step.toInt
    if rangeLimit < count then .error (overflowFault s!"range() of {count} items is too large")
    else .ok ((Id.run (Word64.progressionWith Word64.wrapped start step count)).map .int)

/-- The range that some arguments ask for: a stop, or a start and a stop, and a
step. -/
def rangeOf (args : List Value) : Except Fault (List Value) := do
  match ← args.mapM Value.asInt with
  | [] => .ok []
  | [stop] => rangeItems 0 stop 1
  | start :: stop :: rest => rangeItems start stop (rest.headD 1)

/-- The sum of two numbers in `sum`. -/
def sumTwo (a b : Value) : Except Fault Value :=
  match a, b with
  | .int a, .int b =>
    match Word64.add? a b with
    | some n => .ok (.int n)
    | none => .error (overflowFault "integer overflow in sum()")
  | .int a, .float b => .ok (.float (Value.floatOfWord a + b))
  | .float a, .int b => .ok (.float (a + Value.floatOfWord b))
  | .float a, .float b => .ok (.float (a + b))
  | a, b =>
    .error (typeFault s!"unsupported operand type(s) for +: '{a.typeName}' and '{b.typeName}'")

def sumItems (total : Value) : List Value → Except Fault Value
  | [] => .ok total
  | item :: rest =>
    match sumTwo total item with
    | .error f => .error f
    | .ok total => sumItems total rest

/-- The first item that none of those after it beats; an item beats another if it
compares to it as asked. -/
def extremeItem (beats : Ordering) (best : Value) : List Value → Except Fault Value
  | [] => .ok best
  | v :: rest =>
    match v.compare best with
    | .error f => .error f
    | .ok order => extremeItem beats (if order == beats then v else best) rest

/-- The least or the greatest of the items of one argument, or of several
arguments. -/
def extremeOf (h : Heap) (function : String) (beats : Ordering) (args : List Value) :
    Except Fault Value := do
  let items ← match args with
    | [] => .error (argumentFault s!"{function}() expected at least 1 argument, got 0")
    | [single] => h.iterate single
    | many => .ok many
  match items with
  | [] => .error (argumentFault s!"{function}() arg is an empty sequence")
  | best :: rest => extremeItem beats best rest

def absoluteNumber : Value → Except Fault Value
  | .int n =>
    match Word64.abs? n with
    | some m => .ok (.int m)
    | none => .error (overflowFault "integer overflow in abs()")
  | .float x => .ok (.float x.abs)
  | v => .error (typeFault s!"bad operand type for abs(): '{v.typeName}'")

/-- A power by repeated squaring, onto a product. -/
def squaredPower (product base : Float) : (steps exponent : Nat) → Float
  | 0, _ => product
  | steps + 1, exponent =>
    let product := if exponent % 2 = 1 then product * base else product
    if exponent / 2 = 0 then product
    else squaredPower product (base * base) steps (exponent / 2)

/-- Ten to a power, as a float. The power is moved into the range of the floats. -/
def tenToThe (exponent : Int64) : Float :=
  let n := max (-308) (min 308 exponent.toInt)
  let power := squaredPower 1.0 10.0 64 n.natAbs
  if n < 0 then 1.0 / power else power

/-- A float rounded to so many decimal places; a half goes away from zero. -/
def roundedTo (x : Float) (places : Int64) : Float :=
  let unit := tenToThe places
  floatRounded .halfAway (x * unit) / unit

/-- A number rounded to a whole number, or to so many decimal places. -/
def roundedNumber (v : Value) (places : Option Int64) : Except Fault Value := do
  match v, places with
  | .int n, none => return .int n
  | .int n, some places =>
    if 0 ≤ places then return .int n
    else return .int (← Value.wordOfFloat (roundedTo (Value.floatOfWord n) places))
  | v, none =>
    return .int (← Value.wordOfFloat (floatRounded .halfAway (← numberArgument "round" v)))
  | v, some places => return .float (roundedTo (← numberArgument "round" v) places)

def intOf (v : Value) : Except Fault Value :=
  match v with
  | .bool b => .ok (.int (if b then 1 else 0))
  | .str s =>
    match Text.wholeNumber? ((Text.trim Text.isSpace s.toList).filter (· != '_')) with
    | some n => .ok (.int n)
    | none => .error (typeFault s!"invalid literal for int(): {quoted s}")
  | v => v.asInt.map .int

def floatOf (v : Value) : Except Fault Value :=
  match v with
  | .bool b => .ok (.float (if b then 1.0 else 0.0))
  | .str s =>
    match Text.floatNumber? (Text.trim Text.isSpace s.toList) with
    | some x => .ok (.float x)
    | none => .error (typeFault s!"could not convert string to float: {quoted s}")
  | v => v.asFloat.map .float

end Scripting
