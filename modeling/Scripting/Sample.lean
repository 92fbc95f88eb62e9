/-
# Sample host functions

Functions that an embedding program might register. They show the three ways in
which a host function can report a failure, read its keywords, use the token and
call back.
-/
import Scripting.Environment

namespace Scripting.Sample

/-- The text of an argument; empty if there is none. -/
def textOf (h : Heap) (args : List Value) (n : Nat) : String :=
  (args[n]?.map h.display).getD ""

def echo (args : List Value) (keywords : Keywords) : Run Value := do
  let positional ← Run.newList args.toArray
  let named ← Run.newDict (.ofList keywords.sorted)
  Run.newList #[positional, named]

def cancelToken : Run Unit := Run.change fun w => { w with token := w.token.cancel }

def errorOf (args : List Value) : Run Value := Run.view fun w => .error (textOf w.heap args 0)

/-- Keeps the arguments in the journal and counts what is there. -/
def record (args : List Value) : Run Value := do
  Run.change fun w => { w with journal := w.journal ++ args }
  Run.view fun w => .ofNat w.journal.size

def failWith (args : List Value) : Run Value := do
  let kind ← Run.view fun w => (FaultKind.ofText? (textOf w.heap args 0)).getD .raised
  let message ← Run.view fun w => textOf w.heap args 1
  let line ← match args[2]? with
    | none => Run.pure 0
    | some v => Run.ofExcept v.asInt
  Run.fail ⟨kind, line.toInt.toNat, message⟩

def readKeywords (keywords : Keywords) : Run Value := do
  Run.ofExcept (keywords.only "kw" ["s", "i", "f", "b", "l"])
  let s ← Run.ofExcept (keywords.str "s" "dflt")
  let i ← Run.ofExcept (keywords.int "i" 7)
  let f ← Run.ofExcept (keywords.float "f" 0.5)
  let b ← Run.ofExcept (keywords.bool "b" false)
  let l ← Run.ofExcept (keywords.list? "l")
  Run.newList #[.str s, .int i, .float f, .bool b, (l.map Value.list).getD .none]

def checkToken : Run Value := do
  Run.ofExcept (← Run.view fun w => w.token.check w.now)
  return .str "live"

def apply (call : Caller) (args : List Value) : Run Value :=
  match args with
  | f :: rest => call f rest
  | [] => Run.fail (argumentFault "apply() needs a function")

def body (code : String) : HostBody := fun call args keywords =>
  match code with
  | "echo" => failOnError (echo args keywords)
  | "fail" => failOnError (errorOf args)
  | "cancel" => do
    cancelToken
    return .none
  | "cancel_fail" => failOnError do
    cancelToken
    errorOf args
  | "cancelled" => Run.view fun w => .bool (w.token.hasFired w.now)
  | "record" => record args
  | "native_fail" => failWith args
  | "kw" => readKeywords keywords
  | "check" => checkToken
  | "apply" => apply call args
  | _ => return .none

end Scripting.Sample
