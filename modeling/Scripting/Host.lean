/-
# Host functions

A host function is a function that scripts can call and that is not written in the
language: a built-in, a member of a library that comes with the language, or a
function of the embedding program. It is plain data. What a function of the
embedding program does is given by that program, under the function's code name.
-/

namespace Scripting

inductive Builtin where
  | print | len | str | repr | int | float | bool | type | chr | ord | range | sum | min | max
  | abs | round | sorted | reversed | list | dict | enumerate | zip | map | filter | exception
  | any | all | append | extend
  deriving DecidableEq, Repr

namespace Builtin

def everything : List Builtin :=
  [.print, .len, .str, .repr, .int, .float, .bool, .type, .chr, .ord, .range, .sum, .min, .max,
   .abs, .round, .sorted, .reversed, .list, .dict, .enumerate, .zip, .map, .filter, .exception,
   .any, .all, .append, .extend]

def text : Builtin → String
  | .print => "print"
  | .len => "len"
  | .str => "str"
  | .repr => "repr"
  | .int => "int"
  | .float => "float"
  | .bool => "bool"
  | .type => "type"
  | .chr => "chr"
  | .ord => "ord"
  | .range => "range"
  | .sum => "sum"
  | .min => "min"
  | .max => "max"
  | .abs => "abs"
  | .round => "round"
  | .sorted => "sorted"
  | .reversed => "reversed"
  | .list => "list"
  | .dict => "dict"
  | .enumerate => "enumerate"
  | .zip => "zip"
  | .map => "map"
  | .filter => "filter"
  | .exception => "Exception"
  | .any => "any"
  | .all => "all"
  | .append => "append"
  | .extend => "extend"

def ofText? (s : String) : Option Builtin := everything.find? fun b => b.text == s

end Builtin

inductive JsonFunction where
  | parse | loads | stringify | dumps
  deriving DecidableEq, Repr

def JsonFunction.text : JsonFunction → String
  | .parse => "parse"
  | .loads => "loads"
  | .stringify => "stringify"
  | .dumps => "dumps"

inductive MathFunction where
  | sqrt | pow | floor | ceil | fabs | sin | cos | tan | exp | log | isnan | isinf
  deriving DecidableEq, Repr

def MathFunction.text : MathFunction → String
  | .sqrt => "sqrt"
  | .pow => "pow"
  | .floor => "floor"
  | .ceil => "ceil"
  | .fabs => "fabs"
  | .sin => "sin"
  | .cos => "cos"
  | .tan => "tan"
  | .exp => "exp"
  | .log => "log"
  | .isnan => "isnan"
  | .isinf => "isinf"

/-- What a host function runs. A quiet built-in throws its output away. -/
inductive HostCode where
  | builtin (b : Builtin) (quiet : Bool)
  | json (f : JsonFunction)
  | math (f : MathFunction)
  | native (code : String)
  deriving DecidableEq, Repr

/-- A host function under the name it was registered with. -/
structure HostFunction where
  name : String
  code : HostCode
  deriving DecidableEq, Repr

def HostFunction.describe (f : HostFunction) : String := s!"HostFunction({f.name})"

def Builtin.hostFunction (b : Builtin) (quiet : Bool) : HostFunction := ⟨b.text, .builtin b quiet⟩

end Scripting
