/-
# Arguments

A call has positional arguments and keyword arguments. Positional arguments fill
parameters from the left, keywords fill theirs, and defaults fill what is left.
Host functions read their keywords by name and type.
-/
import Scripting.Value.Access

namespace Scripting

abbrev Keywords := Table Value

variable (keywords : Keywords)

def unexpectedKeyword (function name : String) : Fault :=
  argumentFault s!"{function}() got an unexpected keyword argument '{name}'"

namespace Keywords

def only (function : String) (allowed : List String) : Except Fault Unit :=
  match keywords.keys.find? fun name => !allowed.contains name with
  | some name => .error (unexpectedKeyword function name)
  | none => .ok ()

def named (name : String) (f : Fault) : Fault :=
  { f with message := s!"keyword `{name}`: {f.message}" }

/-- The value of a keyword as some type, or a default. -/
def read {α : Type} (name : String) (default : α)
    (convert : Value → Except Fault α) : Except Fault α :=
  match keywords.get? name with
  | none => .ok default
  | some v => (convert v).mapError (named name)

/-- Reads `None` as a default. -/
def orDefault {α : Type} (default : α) (convert : Value → Except Fault α) :
    Value → Except Fault α
  | .none => .ok default
  | v => convert v

/-- A text; `None` stands for the default. -/
def str (name default : String) : Except Fault String :=
  keywords.read name default (orDefault default Value.asStr)

def int (name : String) (default : Int64) : Except Fault Int64 :=
  keywords.read name default Value.asInt

def float (name : String) (default : Float) : Except Fault Float :=
  keywords.read name default Value.asFloat

def bool (name : String) (default : Bool) : Except Fault Bool :=
  keywords.read name default Value.asBool

/-- A list; `None` stands for no list. -/
def list? (name : String) : Except Fault (Option ListRef) :=
  keywords.read name none (orDefault none fun v => v.asList.map some)

def sorted : List (String × Value) :=
  keywords.entries.mergeSort fun a b => a.1 ≤ b.1

end Keywords

/-- Gives every parameter its positional argument or its keyword, and leaves over
the keywords that no parameter took. -/
def fillSlots (function : String) : List ParamSlot → List Value → Keywords →
    Except Fault (List (ParamSlot × Option Value) × Keywords)
  | [], _, keywords => .ok ([], keywords)
  | param :: params, args, keywords =>
    match keywords.get? param.name, args.head? with
    | some _, some _ =>
      .error (argumentFault s!"{function}() got multiple values for argument '{param.name}'")
    | keyword, positional =>
      match fillSlots function params args.tail (keywords.erase param.name) with
      | .error f => .error f
      | .ok (slots, rest) => .ok ((param, positional.or keyword) :: slots, rest)

/-- Gives every slot that is still empty its default. -/
def fillDefaults (function : String) : List (ParamSlot × Option Value) →
    Except Fault (List Value)
  | [] => .ok []
  | (param, slot) :: rest =>
    match slot.or param.default with
    | none => .error (argumentFault s!"{function}() missing required argument '{param.name}'")
    | some v =>
      match fillDefaults function rest with
      | .error f => .error f
      | .ok values => .ok (v :: values)

def bindArguments (function : String) (params : List ParamSlot) (args : List Value)
    (keywords : Keywords) : Except Fault (List Value) :=
  if params.length < args.length then
    let plural := if params.length = 1 then "" else "s"
    .error (argumentFault
      s!"{function}() takes {params.length} positional argument{plural} but {args.length} were given")
  else
    match fillSlots function params args keywords with
    | .error f => .error f
    | .ok (slots, rest) =>
      match rest.keys with
      | name :: _ => .error (unexpectedKeyword function name)
      | [] => fillDefaults function slots

end Scripting
