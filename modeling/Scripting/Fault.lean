/-
# Faults

A fault ends an evaluation unless a handler catches it. It has a kind, the line it
arose on (zero while none is known) and a message. A line is attached once, at the
innermost place that knows one.
-/

namespace Scripting

inductive FaultKind where
  | name | type | argument | division | index | key | importing | overflow
  | stackOverflow | cancellation | raised
  deriving DecidableEq, Repr

namespace FaultKind

def text : FaultKind → String
  | .name => "NameError"
  | .type => "TypeError"
  | .argument => "ArgumentError"
  | .division => "DivisionError"
  | .index => "IndexError"
  | .key => "KeyError"
  | .importing => "ImportError"
  | .overflow => "OverflowError"
  | .stackOverflow => "StackOverflowError"
  | .cancellation => "CancellationError"
  | .raised => "Error"

def all : List FaultKind :=
  [.name, .type, .argument, .division, .index, .key, .importing, .overflow, .stackOverflow,
   .cancellation, .raised]

def ofText? (s : String) : Option FaultKind := all.find? fun k => k.text == s

def alias? : FaultKind → Option String
  | .division => some "ZeroDivisionError"
  | .argument => some "ValueError"
  | .stackOverflow => some "RecursionError"
  | .key | .index => some "LookupError"
  | _ => none

/-- Whether a handler for a name is for a kind. `Exception` names them all, but
nothing catches a cancellation. -/
def answersTo (kind : FaultKind) (name : String) : Bool :=
  kind != .cancellation &&
    (name == "Exception" || name == kind.text || kind.alias? == some name)

end FaultKind

/-- What ends an evaluation. -/
structure Fault where
  kind : FaultKind
  line : Nat
  message : String
  deriving DecidableEq, Repr

namespace Fault

def of (kind : FaultKind) (message : String) : Fault := ⟨kind, 0, message⟩

def atLine (f : Fault) (line : Nat) : Fault :=
  if f.line = 0 then { f with line := line } else f

def isCancellation (f : Fault) : Bool := f.kind == .cancellation

def render (f : Fault) : String :=
  let place := if f.line = 0 then "" else s!" (line {f.line})"
  s!"{f.kind.text}: {f.message}{place}"

@[simp] theorem kind_atLine (f : Fault) (line : Nat) : (f.atLine line).kind = f.kind := by
  unfold atLine
  split <;> rfl

@[simp] theorem message_atLine (f : Fault) (line : Nat) : (f.atLine line).message = f.message := by
  unfold atLine
  split <;> rfl

end Fault

def typeFault (message : String) : Fault := .of .type message

def argumentFault (message : String) : Fault := .of .argument message

def overflowFault (message : String) : Fault := .of .overflow message

end Scripting
