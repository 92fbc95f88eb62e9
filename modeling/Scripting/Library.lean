/-
# Libraries

A library is a name with members that scripts reach after an import. Two come with
the language: one reads and writes JSON, one has functions on floats. A function of
the JSON library gives back an error instead of failing.
-/
import Scripting.Builtin.Signature
import Scripting.Document.Exchange
import Scripting.World

namespace Scripting

namespace JsonFunction

def reading (codec : Document.Codec) (name : String) (args : List Value) : Run Value :=
  match args with
  | [.str text] =>
    match codec.read text with
    | .ok d => Run.allocate fun h => h.ofDocument d
    | .error message => return .error s!"{name}(): invalid JSON: {message}"
  | _ => return .error s!"{name}() takes exactly one string argument"

def layoutOf (name : String) (keywords : Keywords) : Except String Document.Layout :=
  match keywords.only name ["indent"] with
  | .error f => .error f.message
  | .ok () =>
    match keywords.get? "indent" with
    | none | some .none => .ok .compact
    | some v =>
      match v.asInt with
      | .ok n =>
        if 0 ≤ n then .ok (.indented n.toInt.toNat)
        else .error s!"{name}(): indent must be a non-negative int"
      | .error _ => .error s!"{name}(): indent must be a non-negative int"

def writing (codec : Document.Codec) (name : String) (args : List Value) (keywords : Keywords) :
    Run Value :=
  match args with
  | [v] =>
    match layoutOf name keywords with
    | .error message => return .error message
    | .ok layout => Run.view fun w =>
      match w.heap.toDocument v with
      | .ok d => .str (codec.write layout d)
      | .error f => .error s!"{name}(): {f.message}"
  | _ => return .error s!"{name}() takes exactly one argument"

/-- Calls a function of the JSON library; what it gives back may be an error. -/
def run (codec : Document.Codec) (f : JsonFunction) (args : List Value) (keywords : Keywords) :
    Run Value :=
  match f with
  | .parse | .loads => reading codec f.text args
  | .stringify | .dumps => writing codec f.text args keywords

end JsonFunction

namespace MathFunction

def argument (f : MathFunction) (args : List Value) : Except Fault Float := do
  (ArgCount.exactly 1).check f.text args
  numberArgument f.text (args.headD .none)

def domainFault (f : MathFunction) : Fault := argumentFault s!"{f.text}(): math domain error"

/-- A float rounded to a whole number; a whole number stays as it is. -/
def rounding (f : MathFunction) (mode : Rounding) (args : List Value) : Except Fault Value :=
  match args with
  | [.int n] => .ok (.int n)
  | _ => do return .int (← Value.wordOfFloat (floatRounded mode (← f.argument args)))

def logarithm (args : List Value) : Except Fault Value := do
  (ArgCount.between 1 2).check "log" args
  let x ← numberArgument "log" (args.headD .none)
  if x ≤ 0.0 then throw (domainFault .log)
  match args[1]? with
  | none => return .float x.log
  | some base =>
    let base ← numberArgument "log" base
    if base ≤ 0.0 || base == 1.0 then throw (domainFault .log)
    return .float (x.log / base.log)

def run (f : MathFunction) (args : List Value) : Except Fault Value :=
  match f with
  | .sqrt => do
    let x ← f.argument args
    if x < 0.0 then .error f.domainFault else return .float x.sqrt
  | .pow => do
    (ArgCount.exactly 2).check f.text args
    let x ← numberArgument f.text (args.headD .none)
    let y ← numberArgument f.text (args.getD 1 .none)
    return .float (Float.pow x y)
  | .floor => f.rounding .down args
  | .ceil => f.rounding .up args
  | .fabs => do return .float (← f.argument args).abs
  | .sin => do return .float (← f.argument args).sin
  | .cos => do return .float (← f.argument args).cos
  | .tan => do return .float (← f.argument args).tan
  | .exp => do return .float (← f.argument args).exp
  | .log => logarithm args
  | .isnan => do return .bool (← f.argument args).isNaN
  | .isinf => do return .bool (← f.argument args).isInf

end MathFunction

/-- A name and the members that an import of it makes reachable. -/
structure Library where
  name : String
  members : Table Value

namespace Library

def named (name : String) : Library := ⟨name, .empty⟩

/-- Adds a member; a later one replaces an earlier one of the same name. -/
def withMember (l : Library) (name : String) (value : Value) : Library :=
  { l with members := l.members.insert name value }

/-- Adds a function, whose full name begins with that of the library. -/
def withFunction (h : Heap) (l : Library) (name : String) (code : HostCode) : Library × Heap :=
  let (r, h) := h.newFunction (.host ⟨s!"{l.name}.{name}", code⟩)
  (l.withMember name (.function r), h)

def withFunctions (h : Heap) (l : Library) : List (String × HostCode) → Library × Heap
  | [] => (l, h)
  | (name, code) :: rest =>
    let (l, h) := l.withFunction h name code
    withFunctions h l rest

def json (h : Heap) : Library × Heap :=
  (named "json").withFunctions h <|
    [JsonFunction.parse, .loads, .stringify, .dumps].map fun f => (f.text, .json f)

def pi : Float := Float.ofBits 0x400921FB54442D18

def e : Float := Float.ofBits 0x4005BF0A8B145769

def math (h : Heap) : Library × Heap :=
  let constants := ((named "math").withMember "pi" (.float pi)).withMember "e" (.float e)
  let infinity := Float.ofBits 0x7FF0000000000000
  (constants.withMember "inf" (.float infinity)).withFunctions h <|
    [MathFunction.sqrt, .pow, .floor, .ceil, .fabs, .sin, .cos, .tan, .exp, .log, .isnan,
      .isinf].map fun f => (f.text, .math f)

end Library

def Heap.standardLibraries (h : Heap) : Table Library × Heap :=
  let (json, h) := Library.json h
  let (math, h) := Library.math h
  (.ofList [("json", json), ("math", math)], h)

end Scripting
