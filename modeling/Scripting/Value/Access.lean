/-
# Reading values

What a value is when a number, a text or a container is asked for. Floats narrow
to whole numbers by dropping their fraction and whole numbers widen to floats; no
other type becomes another by itself.
-/
import Scripting.Fault
import Scripting.Heap
import Scripting.Number.Binary
import Scripting.Number.Word
import Scripting.Token

namespace Scripting

/-- A float with a whole value below 10^16 has one decimal place. Any other finite float has the
fewest digits that read back as it, written without an exponent. -/
def floatText (x : Float) : String :=
  match FloatParts.of x with
  | .nan => "nan"
  | .infinite false => "inf"
  | .infinite true => "-inf"
  | .finite negative mantissa exponent =>
    if floatIsWhole x && x.abs < 1e16 then
      (if negative then "-" else "") ++ fixedPlaces 1 mantissa exponent
    else plainFloatText x

/-- `None`, `False`, zero, and empty texts and containers are false. -/
def Heap.isTruthy (h : Heap) : Value → Bool
  | .none => false
  | .bool b => b
  | .int n => n != 0
  | .float x => x != 0.0
  | .str s => !s.isEmpty
  | .list r => !(h.list r).isEmpty
  | .dict r => !(h.dict r).isEmpty
  | .function _ => true
  | .error _ => true

namespace Value

def mismatch (v : Value) (expected : String) : Fault :=
  typeFault s!"expected {expected}, got {v.typeName}"

/-- The whole number that a float becomes: its fraction is dropped. -/
def wordOfFloat (x : Float) : Except Fault Int64 :=
  match floatTruncated? x with
  | .none => .error (overflowFault s!"cannot convert {floatText x} to int")
  | some n =>
    match Word64.ofInt? n with
    | some word => .ok word
    | .none => .error (overflowFault s!"float {floatText x} out of int range")

def floatOfWord (n : Int64) : Float := floatOfInt n.toInt

def asInt : Value → Except Fault Int64
  | .int n => .ok n
  | .float x => wordOfFloat x
  | v => .error (v.mismatch "int")

def asFloat : Value → Except Fault Float
  | .float x => .ok x
  | .int n => .ok (floatOfWord n)
  | v => .error (v.mismatch "float")

def asStr : Value → Except Fault String
  | .str s => .ok s
  | v => .error (v.mismatch "str")

def asBool : Value → Except Fault Bool
  | .bool b => .ok b
  | v => .error (v.mismatch "bool")

def asList : Value → Except Fault ListRef
  | .list r => .ok r
  | v => .error (v.mismatch "list")

def asDict : Value → Except Fault DictRef
  | .dict r => .ok r
  | v => .error (v.mismatch "dict")

def notCallable (v : Value) : Fault := typeFault s!"'{v.typeName}' object is not callable"

end Value

namespace Heap

def asFunction (h : Heap) (v : Value) : Except Fault Callable :=
  match v with
  | .function r =>
    match h.function? r with
    | some f => .ok f
    | none => .error v.notCallable
  | _ => .error v.notCallable

/-- What a loop over a value visits: the items of a list as they are now, the keys
of a dict, or the characters of a text. -/
def iterate (h : Heap) : Value → Except Fault (List Value)
  | .list r => .ok (h.list r).toList
  | .dict r => .ok ((h.dict r).keys.map .str)
  | .str s => .ok (s.toList.map fun c => .str (String.singleton c))
  | v => .error (typeFault s!"'{v.typeName}' object is not iterable")

end Heap

end Scripting
