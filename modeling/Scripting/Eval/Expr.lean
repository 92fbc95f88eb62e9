/-
# What expressions do

Each form of expression, given how its parts are evaluated. Parts are evaluated
from left to right, and a fault in a part ends the whole.
-/
import Scripting.Environment
import Scripting.Method
import Scripting.Operator

namespace Scripting

variable (eval : Expr → Run Value)

/-- How a function is called: with positional and keyword arguments, on a line. -/
abbrev FullCaller := Value → List Value → Keywords → Nat → Run Value

/-- Fails once the token has fired, and warns of it. Otherwise some moments pass. -/
def checkpoint (line : Nat) (moments : Nat := 1) : Run Unit := fun w =>
  match w.token.check w.now with
  | .ok () => .ok () { w with now := w.now + moments }
  | .error f => .fault (f.atLine line) (w.warn (.cancelled line f.message w.token.deadline))

theorem checkpoint_of_not_hasFired {w : World} (h : ¬ w.token.hasFired w.now = true)
    (line moments : Nat) :
    checkpoint line moments w = .ok () { w with now := w.now + moments } := by
  unfold checkpoint
  rw [CancelToken.check_of_not_hasFired h]

def evalTest (condition : Expr) : Run Bool := do
  let v ← eval condition
  Run.view fun w => w.heap.isTruthy v

/-- The values of some expressions, behind those that are there. -/
def evalEach (eval : Expr → Run Value) (done : Array Value) : List Expr → Run (Array Value)
  | [] => pure done
  | e :: rest => do
    let v ← eval e
    evalEach eval (done.push v) rest

def evalKeywords (eval : Expr → Run Value) (done : Keywords) : List Keyword → Run Keywords
  | [] => pure done
  | k :: rest => do
    let v ← eval k.value
    evalKeywords eval (done.insert k.name v) rest

def evalEntries (eval : Expr → Run Value) (line : Nat) (done : Table Value) :
    List DictEntry → Run (Table Value)
  | [] => pure done
  | e :: rest => do
    let key ← eval e.key
    let name ← Run.atLine line (Run.ofExcept (dictKey key))
    let v ← eval e.value
    evalEntries eval line (done.insert name v) rest

def evalBinary (line : Nat) (op : BinaryOp) (left right : Expr) :
    Run Value := do
  let a ← eval left
  let b ← eval right
  binary op a b line

def evalLogic (op : LogicOp) (left right : Expr) : Run Value := do
  let a ← eval left
  let truthy ← Run.view fun w => w.heap.isTruthy a
  match op, truthy with
  | .and, false | .or, true => return a
  | _, _ => eval right

def evalUnary (line : Nat) (op : UnaryOp) (operand : Expr) :
    Run Value := do
  let v ← eval operand
  Run.atLine line (Run.inspect fun h => unary h op v)

def evalConditional (condition thenValue elseValue : Expr) :
    Run Value := do
  if ← evalTest eval condition then eval thenValue else eval elseValue

def evalCall (call : FullCaller) (line : Nat) (callee : Expr)
    (args : List Expr) (keywords : List Keyword) : Run Value := do
  let f ← eval callee
  let args ← evalEach eval #[] args
  let keywords ← evalKeywords eval .empty keywords
  call f args.toList keywords line

def memberFunction? (h : Heap) (object : Value) (name : String) : Option Value :=
  match object with
  | .dict r => ((h.dict r).get? name).filter Value.isFunction
  | _ => none

def noMethod (v : Value) (name : String) (line : Nat) : Fault :=
  ⟨.type, line, s!"'{v.typeName}' object has no method '{name}'"⟩

/-- A call of a method. A function in a dict is called as it is. -/
def evalMethod (call : FullCaller) (line : Nat) (object : Expr)
    (name : String) (args : List Expr) (keywords : List Keyword) : Run Value := do
  let receiver ← eval object
  let args ← evalEach eval #[] args
  let keywords ← evalKeywords eval .empty keywords
  match ← Run.view fun w => memberFunction? w.heap receiver name with
  | some f => call f args.toList keywords line
  | none =>
    match callMethod? receiver name args.toList keywords with
    | some act => Run.atLine line act
    | none => Run.fail (noMethod receiver name line)

def evalIndex (line : Nat) (container key : Expr) : Run Value := do
  let c ← eval container
  let k ← eval key
  Run.atLine line (Run.inspect fun h => h.getItem c k)

def evalBound : Option Expr → Run (Option Int64)
  | none => pure none
  | some e => do
    match ← eval e with
    | .none => return none
    | .int n => return some n
    | v =>
      Run.fail ⟨.type, e.pos.line,
        s!"slice indices must be integers or None, not {v.typeName}"⟩

def evalSlice (line : Nat) (container : Expr)
    (start stop step : Option Expr) : Run Value := do
  let target ← eval container
  let start ← evalBound eval start
  let stop ← evalBound eval stop
  let step ← evalBound eval step
  Run.atLine line (slice target ⟨start, stop, step⟩)

def evalMember (line : Nat) (object : Expr) (name : String) :
    Run Value := do
  let v ← eval object
  Run.atLine line (Run.inspect fun h => h.member v name)

/-- The parameters of a function with the values of their defaults. -/
def evalParams (eval : Expr → Run Value) (done : Array ParamSlot) :
    List Param → Run (Array ParamSlot)
  | [] => pure done
  | p :: rest => do
    match p.default with
    | none => evalParams eval (done.push ⟨p.name, none⟩) rest
    | some e =>
      let v ← eval e
      evalParams eval (done.push ⟨p.name, some v⟩) rest

def makeClosure (scope : ScopeRef) (name : String)
    (params : List Param) (body : List Stmt) : Run Value := do
  let slots ← evalParams eval #[] params
  Run.newFunction (.script ⟨name, slots.toList, body, scope⟩)

def formatPart (h : Heap) (v : Value) (repr : Bool) (spec : Option String) :
    Except Fault String :=
  h.format (if repr then .str (h.repr v) else v) (spec.getD "")

def formatParts (eval : Expr → Run Value) (line : Nat) (done : String) :
    List FStringPart → Run String
  | [] => pure done
  | .text s :: rest => formatParts eval line (done ++ s) rest
  | .field e repr spec :: rest => do
    let v ← eval e
    let text ← Run.atLine line (Run.inspect fun h => formatPart h v repr spec)
    formatParts eval line (done ++ text) rest

/-! ### Comprehensions -/

mutual

def defineTarget (scope : ScopeRef) : Target → Value → Run Unit
  | .name name, v => Run.changeHeap fun h => h.define scope name v
  | .group targets, v => do
    let items ← Run.inspect fun h => h.unpack v targets.length
    defineTargets scope targets items
  | .index _ _, _ => Run.fail (typeFault "loop variable must be a name")

def defineTargets (scope : ScopeRef) : List Target → List Value → Run Unit
  | target :: targets, v :: values => do
    defineTarget scope target v
    defineTargets scope targets values
  | _, _ => pure ()

end

/-- Goes through some items with a result that every item can change. -/
def foldItems {α : Type} (step : α → Value → Run α) (acc : α) : List Value → Run α
  | [] => pure acc
  | item :: rest => do
    let acc ← step acc item
    foldItems step acc rest

/-- One round of a comprehension: binds the target, and goes on if the condition
holds. -/
def comprehendItem {α : Type} (line : Nat) (inner : ScopeRef)
    (clause : Clause) (emit : α → Run α) (acc : α) (item : Value) : Run α := do
  checkpoint line
  Run.atLine line (defineTarget inner clause.target item)
  match clause.condition with
  | none => emit acc
  | some condition => if ← evalTest eval condition then emit acc else return acc

/-- Runs a comprehension: all its rounds share one scope inside the one around it. -/
def comprehend {α : Type} (eval : ScopeRef → Expr → Run Value) (line : Nat) (scope : ScopeRef)
    (clause : Clause) (emit : ScopeRef → α → Run α) (start : α) : Run α := do
  let v ← eval scope clause.iterable
  let items ← Run.atLine line (Run.inspect fun h => h.iterate v)
  let inner ← Run.allocate fun h => h.newChild scope
  foldItems (comprehendItem (eval inner) line inner clause (emit inner)) start items

def evalListOf (eval : ScopeRef → Expr → Run Value) (line : Nat) (scope : ScopeRef)
    (item : Expr) (clause : Clause) : Run Value := do
  let items ← comprehend eval line scope clause
    (fun inner (done : Array Value) => do
      let v ← eval inner item
      return done.push v) #[]
  Run.newList items

def evalDictOf (eval : ScopeRef → Expr → Run Value) (line : Nat) (scope : ScopeRef)
    (key value : Expr) (clause : Clause) : Run Value := do
  let entries ← comprehend eval line scope clause
    (fun inner (done : Table Value) => do
      let k ← eval inner key
      let name ← Run.atLine line (Run.ofExcept (dictKey k))
      let v ← eval inner value
      return done.insert name v) .empty
  Run.newDict entries

end Scripting
