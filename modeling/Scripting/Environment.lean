/-
# Environments

What an evaluation finds around it and does not change: the global scope, the host
functions and libraries, what the functions of the embedding program do, how deep
calls may nest, and how JSON is read and written.
-/
import Scripting.Builtin
import Scripting.Library

namespace Scripting

/-- What a function of the embedding program does. -/
abbrev HostBody := Caller → List Value → Keywords → Run Value

structure Environment where
  globals : ScopeRef
  functions : Table HostFunction
  libraries : Table Library
  natives : String → HostBody
  maxDepth : Nat
  codec : Document.Codec := .standard

/-- Turns an error that a function gives back into a fault: a cancellation once the
token has fired, a raised error otherwise. -/
def failOnError (act : Run Value) : Run Value := do
  match ← act with
  | .error message =>
    let fired ← Run.view fun w => w.token.hasFired w.now
    Run.fail (.of (if fired then .cancellation else .raised) message)
  | v => return v

def HostFunction.invoke (natives : String → HostBody) (call : Caller) (f : HostFunction)
    (args : List Value) (keywords : Keywords) (codec : Document.Codec := .standard) : Run Value :=
  match f.code with
  | .builtin b quiet => b.run quiet call args keywords
  | .json f => failOnError (f.run codec args keywords)
  | .math f => Run.ofExcept (f.run args)
  | .native code => natives code call args keywords

/-- The fault for a script function that is called while no script runs. -/
def detachedFault (name : String) : Fault :=
  typeFault s!"{name}() can only be called while a script is running"

/-- How a host function calls functions while no script runs: it reaches host
functions only. -/
def detachedCall (natives : String → HostBody) : (fuel : Nat) → Caller
  | 0, _, _ => Run.exhausted
  | fuel + 1, f, args => do
    match ← Run.inspect fun h => h.asFunction f with
    | .host f => f.invoke natives (detachedCall natives fuel) args .empty
    | .script closure => Run.fail (detachedFault closure.name)

/-- What a name means: its nearest binding, an imported module, or a host function,
in that order. A host function becomes a new function value every time. -/
def resolveName (env : Environment) (scope : ScopeRef) (name : String) (line : Nat) :
    Run Value := do
  let bound ← Run.view fun w => (w.heap.lookup scope name).or (w.modules.get? name)
  match bound with
  | some v => return v
  | none =>
    match env.functions.get? name with
    | some f => Run.newFunction (.host f)
    | none => Run.fail ⟨.name, line, s!"name '{name}' is not defined"⟩

/-! ### Imports -/

def importFault (message : String) : Fault := .of .importing message

/-- The dict that a part of a module's name stands for, made if it is not there. -/
def packageOf (part : String) (found : Option Value) (bind : Value → Run Unit) :
    Run DictRef := do
  match found with
  | some (.dict r) => return r
  | some _ => Run.fail (importFault s!"'{part}' is not a package")
  | none =>
    let r ← Run.allocate fun h => h.newDict .empty
    bind (.dict r)
    return r

def bindModule (name : String) (v : Value) : Run Unit :=
  Run.change fun w => { w with modules := w.modules.insert name v }

def bindEntry (r : DictRef) (name : String) (v : Value) : Run Unit :=
  Run.changeHeap fun h => h.modifyDict r fun entries => entries.insert name v

/-- Binds the last part of a module's name inside its packages. -/
def importInto (r : DictRef) (library : Library) : List String → Run Unit
  | [] => pure ()
  | [leaf] => do
    let known ← Run.view fun w => (w.heap.dict r).contains leaf
    if !known then bindEntry r leaf (← Run.newDict library.members)
  | part :: rest => do
    let found ← Run.view fun w => (w.heap.dict r).get? part
    let package ← packageOf part found (bindEntry r part)
    importInto package library rest

/-- Makes a library reachable under its name. The parts of a name with points are
dicts inside each other. A name that is bound stays as it is. -/
def importModule (env : Environment) (name : String) : Run Unit := do
  match env.libraries.get? name with
  | none => Run.fail (importFault s!"no module named '{name}'")
  | some library =>
    match Text.pieces name "." with
    | [] => pure ()
    | [head] =>
      let known ← Run.view fun w => w.modules.contains head
      if !known then bindModule head (← Run.newDict library.members)
    | head :: rest =>
      let found ← Run.view fun w => w.modules.get? head
      let package ← packageOf head found (bindModule head)
      importInto package library rest

end Scripting
