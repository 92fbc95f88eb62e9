/-
# Sessions

A session is what an embedding program holds: the settings, the host functions and
libraries, and the world that scripts change. Global names, imported modules and
registered functions stay from one evaluation to the next. What a script did before
it failed stays done.
-/
import Scripting.Eval
import Scripting.Grammar.Stmt

namespace Scripting

structure Settings where
  maxDepth : Nat := 1000
  capture : Bool := false
  builtins : Bool := true
  preload : List String := []

/-- Why the embedding program gets no answer. -/
inductive Failure where
  | syntaxErrors (errors : List Diagnostic)
  | fault (f : Fault)
  | noVariable (name : String)
  | noFunction (name : String)
  | exhausted

def Failure.text : Failure → String
  | .syntaxErrors errors =>
    "syntax error: " ++ String.intercalate "; " (errors.map Diagnostic.render)
  | .fault f => f.render
  | .noVariable name => s!"variable `{name}` not found"
  | .noFunction name => s!"function `{name}` not found"
  | .exhausted => "step budget used up"

structure Session where
  settings : Settings
  env : Environment
  world : World

variable (s : Session)

def stepBudget : Nat := Nat.pow 2 62

namespace Session

variable {α : Type}

/-- A session with nothing imported, on a heap that may hold other things. -/
def buildOn (h : Heap) (natives : String → HostBody) (settings : Settings) : Session :=
  let (globals, h) := h.newGlobal
  let (libraries, h) := h.standardLibraries
  let functions := if settings.builtins
    then Builtin.everything.map fun b => (b.text, b.hostFunction false) else []
  { settings := settings
    env := ⟨globals, .ofList functions, libraries, natives, settings.maxDepth, .standard⟩
    world := { World.fresh .live (if settings.capture then .capture else .console) with heap := h } }

def build (natives : String → HostBody) (settings : Settings) : Session :=
  buildOn .empty natives settings

def run (token : CancelToken) (act : Run α) : Except Failure α × Session :=
  match act { s.world with token := token, depth := 0, handling := [] } with
  | .ok a w => (.ok a, { s with world := w })
  | .fault f w => (.error (.fault f), { s with world := w })
  | .exhausted => (.error .exhausted, s)

def eval (token : CancelToken) (source : String) : Except Failure Value × Session :=
  match parse source with
  | .error errors => (.error (.syntaxErrors errors), s)
  | .ok program => s.run token (runProgram s.env stepBudget program)

/-! ### Names -/

def setVar (name : String) (v : Value) : Session :=
  { s with world := { s.world with heap := s.world.heap.define s.env.globals name v } }

def getVar (name : String) : Except Failure Value :=
  match s.world.heap.local? s.env.globals name with
  | some v => .ok v
  | none => .error (.noVariable name)

def getVarAs (name : String) (convert : Value → Except Fault α) :
    Except Failure α :=
  match s.getVar name with
  | .error failure => .error failure
  | .ok v =>
    match convert v with
    | .error f => .error (.fault f)
    | .ok a => .ok a

/-- The global names in the order in which they were bound. -/
def varNames : List String := (s.world.heap.scope s.env.globals).vars.keys

def hasVar (name : String) : Bool := s.varNames.contains name

/-! ### Functions and libraries -/

def registerLibrary (l : Library) : Session :=
  { s with env := { s.env with libraries := s.env.libraries.insert l.name l } }

def functionNames : List String := s.env.functions.keys

def hasFunction (name : String) : Bool := s.env.functions.contains name

def libraryNames : List String := s.env.libraries.keys.mergeSort fun a b => a ≤ b

def hasLibrary (name : String) : Bool := s.env.libraries.contains name

def importLibrary (name : String) : Except Failure Unit × Session :=
  s.run .live (importModule s.env name)

def importAll (s : Session) : List String → Except Failure Session
  | [] => .ok s
  | name :: rest =>
    match s.importLibrary name with
    | (.error failure, _) => .error failure
    | (.ok (), s) => s.importAll rest

/-- A session with the libraries imported that its settings name. -/
def withSettings (natives : String → HostBody) (settings : Settings) : Except Failure Session :=
  (build natives settings).importAll settings.preload

/-- The member of a module that a path leads to. -/
def walk (h : Heap) (v : Value) : List String → Option Value
  | [] => some v
  | part :: rest =>
    match v with
    | .dict r => ((h.dict r).get? part).bind fun v => walk h v rest
    | _ => none

def moduleFunction? (name : String) : Option Value :=
  match Text.pieces name "." with
  | [] => none
  | head :: rest =>
    (((s.world.modules.get? head).bind fun v => walk s.world.heap v rest)).filter Value.isFunction

/-- The function that a name means to the embedding program: a host function, a
global function, or a member of a module, in that order. -/
def findFunction? (name : String) : Option (Run Value) :=
  match s.env.functions.get? name with
  | some f => some (Run.newFunction (.host f))
  | none =>
    let bound := (s.world.heap.local? s.env.globals name).filter Value.isFunction
    (bound.or (s.moduleFunction? name)).map Run.pure

def call (token : CancelToken) (name : String) (args : List Value)
    (keywords : Keywords) : Except Failure Value × Session :=
  match s.findFunction? name with
  | none => (.error (.noFunction name), s)
  | some find => s.run token do
    let f ← find
    callValue s.env stepBudget f args keywords 0

/-- Runs a script in a session of its own that shares a heap with others. Its global
names are gone afterwards; what it gives back stays. -/
def evalApart (natives : String → HostBody) (source : String) (h : Heap) :
    Except Failure Value × Heap :=
  let apart := buildOn h natives {}
  let (result, after) := apart.eval .live source
  (result, after.world.heap.clearScope apart.env.globals)

/-! ### Output -/

def setOutput (mode : Sink.Mode) : Session :=
  { s with world := { s.world with output := s.world.output.setMode mode } }

def takeOutput : String × Session :=
  let (text, sink) := s.world.output.take
  (text, { s with world := { s.world with output := sink } })

def takeWritten (s : Session) : String × Session :=
  let (text, sink) := s.world.output.takeWritten
  (text, { s with world := { s.world with output := sink } })

end Session

end Scripting
