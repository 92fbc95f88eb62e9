/-
# Operators

Whole numbers are computed exactly and a result that does not fit in 64 bits is a
fault; only division with `/` and powers with negative exponents give floats. A mix
with a float is computed in floats. Texts and lists can be joined and repeated.
Equality and membership are defined for all values, the other operators only for the
pairs of types given here.
-/
import Scripting.Expr
import Scripting.Value.Equality
import Scripting.Value.Order
import Scripting.World

namespace Scripting

variable (op : BinaryOp) (a b : Value)

def integerOverflow : Fault := overflowFault "integer overflow"

def wordResult : Option Int64 → Except Fault Value
  | some n => .ok (.int n)
  | none => .error integerOverflow

def divisionFault (what : String) : Fault := .of .division s!"{what} by zero"

/-- Whether an order is the one that a comparison asks for; no answer for other
operators. -/
def BinaryOp.holdsOf? : BinaryOp → Ordering → Option Bool
  | .lt, order => some order.isLT
  | .le, order => some order.isLE
  | .gt, order => some order.isGT
  | .ge, order => some order.isGE
  | _, _ => none

/-- A comparison of two values; no answer for other operators. -/
def comparison? : Option (Except Fault Value) :=
  match op with
  | .lt | .le | .gt | .ge =>
    some (match a.compare b with
      | .error f => .error f
      | .ok order => .ok (.bool ((op.holdsOf? order).getD false)))
  | _ => none

/-- The power of two whole numbers. Zero, one and minus one have powers with any
exponent that is not negative, and one has the others, too. -/
def intPower (a b : Int64) : Except Fault Value :=
  if a = 0 ∧ b < 0 then .error (.of .division "0 cannot be raised to a negative power")
  else if a = 0 ∧ 0 < b then .ok (.int 0)
  else if a = 1 then .ok (.int 1)
  else if a = -1 ∧ 0 ≤ b then .ok (.int (if b % 2 = 0 then 1 else -1))
  else if b < 0 then .ok (.float (Float.pow (Value.floatOfWord a) (Value.floatOfWord b)))
  else wordResult (Word64.pow? a b)

def intOperation? (op : BinaryOp) (a b : Int64) : Option (Except Fault Value) :=
  match op with
  | .add => some (wordResult (Word64.add? a b))
  | .sub => some (wordResult (Word64.sub? a b))
  | .mul => some (wordResult (Word64.mul? a b))
  | .div =>
    some (if b = 0 then .error (divisionFault "division")
      else .ok (.float (Value.floatOfWord a / Value.floatOfWord b)))
  | .floorDiv =>
    some (if b = 0 then .error (divisionFault "integer division")
      else wordResult (Word64.floorDiv? a b))
  | .mod =>
    some (if b = 0 then .error (divisionFault "modulo") else wordResult (Word64.floorMod? a b))
  | .pow => some (intPower a b)
  | op => comparison? op (.int a) (.int b)

def floatOperation? (op : BinaryOp) (a b : Float) : Option (Except Fault Value) :=
  match op with
  | .add => some (.ok (.float (a + b)))
  | .sub => some (.ok (.float (a - b)))
  | .mul => some (.ok (.float (a * b)))
  | .div =>
    some (if b == 0.0 then .error (divisionFault "division") else .ok (.float (a / b)))
  | .floorDiv =>
    some (if b == 0.0 then .error (divisionFault "division")
      else .ok (.float (floatRounded .down (a / b))))
  | .mod =>
    some (if b == 0.0 then .error (divisionFault "modulo")
      else .ok (.float (a - b * floatRounded .down (a / b))))
  | .pow =>
    some (if a == 0.0 && b < 0.0 then
        .error (.of .division "0.0 cannot be raised to a negative power")
      else .ok (.float (Float.pow a b)))
  | op => comparison? op (.float a) (.float b)

/-- How often something is repeated. A result of more than 2^63 - 1 bytes is beyond
reach. -/
def repeatCount (unitBytes : Nat) (n : Int64) : Except Fault Nat :=
  let count := n.toInt.toNat
  if unitBytes * count < Nat.pow 2 63 then .ok count else .error integerOverflow

def repeatedText (s : String) (n : Int64) : Except Fault Value :=
  match repeatCount s.utf8ByteSize n with
  | .error f => .error f
  | .ok count => .ok (.str (if s.isEmpty then "" else String.join (List.replicate count s)))

def itemBytes : Nat := 24

def repeatedList (r : ListRef) (n : Int64) : Run Value := do
  let items ← Run.view fun w => w.heap.list r
  let count ← Run.ofExcept (repeatCount (max items.size 1 * itemBytes) n)
  Run.newList (if items.isEmpty then #[] else (List.replicate count items.toList).flatten.toArray)

def joinedList (r s : ListRef) : Run Value := do
  let items ← Run.view fun w => w.heap.list r ++ w.heap.list s
  Run.newList items

/-- What an operator does with two values, if it is defined for their types. -/
def operation? : Option (Run Value) :=
  match a, b with
  | .int a, .int b => (intOperation? op a b).map .ofExcept
  | .int a, .float b => (floatOperation? op (Value.floatOfWord a) b).map .ofExcept
  | .float a, .int b => (floatOperation? op a (Value.floatOfWord b)).map .ofExcept
  | .float a, .float b => (floatOperation? op a b).map .ofExcept
  | .str a, .str b =>
    if op = .add then some (Run.pure (.str (a ++ b)))
    else (comparison? op (.str a) (.str b)).map .ofExcept
  | .str s, .int n | .int n, .str s =>
    if op = .mul then some (.ofExcept (repeatedText s n)) else none
  | .list r, .list s => if op = .add then some (joinedList r s) else none
  | .list r, .int n | .int n, .list r => if op = .mul then some (repeatedList r n) else none
  | _, _ => none

def unsupported : Fault :=
  typeFault s!"unsupported operand type(s) for {op.text}: '{a.typeName}' and '{b.typeName}'"

def binary (line : Nat) : Run Value :=
  Run.atLine line <|
    match op with
    | .eq => Run.inspect fun h => (h.equals a b).map .bool
    | .ne => Run.inspect fun h => (h.equals a b).map fun same => .bool !same
    | .isIn => Run.inspect fun h => (h.contains b a).map .bool
    | .notIn => Run.inspect fun h => (h.contains b a).map fun found => .bool !found
    | op =>
      match operation? op a b with
      | some act => act
      | none => Run.fail (unsupported op a b)

def unary (h : Heap) (op : UnaryOp) (v : Value) : Except Fault Value :=
  match op, v with
  | .not, v => .ok (.bool !(h.isTruthy v))
  | .neg, .int n => wordResult (Word64.neg? n)
  | .neg, .float x => .ok (.float (-x))
  | .pos, .int n => .ok (.int n)
  | .pos, .float x => .ok (.float x)
  | .neg, v => .error (typeFault s!"bad operand type for unary -: '{v.typeName}'")
  | .pos, v => .error (typeFault s!"bad operand type for unary +: '{v.typeName}'")

end Scripting
