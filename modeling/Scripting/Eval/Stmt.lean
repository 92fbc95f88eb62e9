/-
# What statements do

Each form of statement, given how its expressions are evaluated and its blocks are
run. A statement finishes normally or with a jump, which the construct that it
belongs to takes up.
-/
import Scripting.Eval.Expr

namespace Scripting

variable (eval : Expr → Run Value)

/-- How a statement finishes. -/
inductive Flow where
  | normal
  | giveBack (v : Value)
  | breakLoop
  | continueLoop
  deriving Repr

/-- The moments that pass as a statement begins. One that does no more than arrange for
faults, or raise one again, takes none. -/
def Stmt.moments : Stmt → Nat
  | .attempt .. | .raise _ none => 0
  | _ => 1

def runBlock (exec : Stmt → Run Flow) : List Stmt → Run Flow
  | [] => pure .normal
  | s :: rest => do
    match ← exec s with
    | .normal => runBlock exec rest
    | flow => return flow

/-- Runs the block of the first branch whose condition holds, or the last resort. -/
def runBranches (eval : Expr → Run Value) (block : List Stmt → Run Flow)
    (otherwise : Option (List Stmt)) : List Branch → Run Flow
  | [] =>
    match otherwise with
    | some body => block body
    | none => pure .normal
  | b :: rest => do
    if ← evalTest eval b.condition then block b.body
    else runBranches eval block otherwise rest

/-! ### Loops -/

def loopOver (body : Value → Run Flow) : List Value → Run Flow
  | [] => pure .normal
  | item :: rest => do
    match ← body item with
    | .breakLoop => return .normal
    | .giveBack v => return .giveBack v
    | .normal | .continueLoop => loopOver body rest

/-- One round of a loop over items, in a scope of its own. -/
def forRound (block : ScopeRef → List Stmt → Run Flow) (line : Nat) (scope : ScopeRef)
    (target : Target) (body : List Stmt) (item : Value) : Run Flow := do
  checkpoint line
  let inner ← Run.allocate fun h => h.newChild scope
  Run.atLine line (defineTarget inner target item)
  block inner body

/-- A loop over the items of a value, which are taken before the first round. -/
def runFor (block : ScopeRef → List Stmt → Run Flow) (line : Nat)
    (scope : ScopeRef) (target : Target) (iterable : Expr) (body : List Stmt) : Run Flow := do
  let v ← eval iterable
  let items ← Run.atLine line (Run.inspect fun h => h.iterate v)
  loopOver (forRound block line scope target body) items

def loopWhile (test : Run Bool) (body : Run Flow) : (fuel : Nat) → Run Flow
  | 0 => Run.exhausted
  | fuel + 1 => do
    if ← test then
      match ← body with
      | .breakLoop => return .normal
      | .giveBack v => return .giveBack v
      | .normal | .continueLoop => loopWhile test body fuel
    else return .normal

def whileTest (line : Nat) (condition : Expr) : Run Bool := do
  checkpoint line
  evalTest eval condition

/-! ### Assignments -/

mutual

def assignTarget (eval : Expr → Run Value) (scope : ScopeRef) (line : Nat) :
    Target → Value → Run Unit
  | .name name, v => Run.changeHeap fun h => h.assign scope name v
  | .index container key, v => do
    let c ← eval container
    let k ← eval key
    Run.atLine line (setItem c k v)
  | .group targets, v => do
    let items ← Run.atLine line (Run.inspect fun h => h.unpack v targets.length)
    assignTargets eval scope line targets items

def assignTargets (eval : Expr → Run Value) (scope : ScopeRef) (line : Nat) :
    List Target → List Value → Run Unit
  | target :: targets, v :: values => do
    assignTarget eval scope line target v
    assignTargets eval scope line targets values
  | _, _ => pure ()

end

def runAssign (scope : ScopeRef) (line : Nat) (target : Target)
    (value : Expr) : Run Flow := do
  let v ← eval value
  assignTarget eval scope line target v
  return .normal

def augment (env : Environment) (scope : ScopeRef) (line : Nat)
    (op : BinaryOp) (target : Target) (value : Expr) : Run Flow :=
  match target with
  | .name name => do
    let current ← resolveName env scope name line
    let v ← eval value
    let updated ← binary op current v line
    Run.changeHeap fun h => h.assign scope name updated
    return .normal
  | .index container key => do
    let c ← eval container
    let k ← eval key
    let current ← Run.atLine line (Run.inspect fun h => h.getItem c k)
    let v ← eval value
    let updated ← binary op current v line
    Run.atLine line (setItem c k updated)
    return .normal
  | .group _ => Run.fail ⟨.type, line, "augmented assignment needs a single target"⟩

def runDefine (scope : ScopeRef) (name : String)
    (params : List Param) (body : List Stmt) : Run Flow := do
  let f ← makeClosure eval scope name params body
  Run.changeHeap fun h => h.defineInFrame scope name f
  return .normal

def runGiveBack (value : Option Expr) : Run Flow := do
  match value with
  | none => return .giveBack .none
  | some e => return .giveBack (← eval e)

/-! ### Faults -/

/-- Whether a handler is for a fault. Of a name with points only the last part
counts. -/
def Handler.catches (handler : Handler) (f : Fault) : Bool :=
  match handler.kind with
  | none => true
  | some name => f.kind.answersTo ((Text.pieces name ".").getLast?.getD name)

def whileHandling {α : Type} (f : Fault) (act : Run α) : Run α := fun w =>
  match act { w with handling := f :: w.handling } with
  | .ok a w => .ok a { w with handling := w.handling.tail }
  | .fault g w => .fault g { w with handling := w.handling.tail }
  | .exhausted => .exhausted

/-- Runs the first handler that is for a fault, or passes the fault on. Nothing
handles a cancellation. -/
def handleFault (block : List Stmt → Run Flow) (scope : ScopeRef) (handlers : List Handler)
    (f : Fault) : Run Flow :=
  if f.isCancellation then Run.fail f
  else
    match handlers.find? fun handler => handler.catches f with
    | none => Run.fail f
    | some handler => do
      match handler.binding with
      | some name => Run.changeHeap fun h => h.assign scope name (.error f.message)
      | none => pure ()
      whileHandling f (block handler.body)

/-- Runs a block with its handlers, and the block for the case that nothing
happened. -/
def attemptBody (block : List Stmt → Run Flow) (scope : ScopeRef) (body : List Stmt)
    (handlers : List Handler) (otherwise : Option (List Stmt)) : Run Flow := do
  match ← Run.attempt (block body) with
  | .ok .normal =>
    match otherwise with
    | some rest => block rest
    | none => return .normal
  | .ok flow => return flow
  | .error f => handleFault block scope handlers f

/-- Runs a block with its handlers. The last block always runs; a fault in it or a
jump out of it replaces what was before. -/
def attempt (block : List Stmt → Run Flow) (scope : ScopeRef) (body : List Stmt)
    (handlers : List Handler) (otherwise always : Option (List Stmt)) : Run Flow :=
  match always with
  | none => attemptBody block scope body handlers otherwise
  | some last => do
    let outcome ← Run.attempt (attemptBody block scope body handlers otherwise)
    match ← block last with
    | .normal => Run.ofExcept outcome
    | flow => return flow

def raisedText (h : Heap) : Value → String
  | .error message => message
  | v => h.display v

/-- Raises a fault with the text of a value, or the fault that is being handled
again. -/
def raiseFault (line : Nat) (value : Option Expr) : Run Flow := do
  match value with
  | some e =>
    let v ← eval e
    let message ← Run.view fun w => raisedText w.heap v
    Run.fail ⟨.raised, line, message⟩
  | none =>
    match ← Run.view fun w => w.handling.head? with
    | some f => Run.fail f
    | none => Run.fail ⟨.raised, line, "no active exception to re-raise"⟩

/-! ### Calls -/

def oneDeeper {α : Type} (act : Run α) : Run α := fun w =>
  match act { w with depth := w.depth + 1 } with
  | .ok a w => .ok a { w with depth := w.depth - 1 }
  | .fault f w => .fault f { w with depth := w.depth - 1 }
  | .exhausted => .exhausted

def newCallFrame (h : Heap) (closure : Closure) (values : List Value) : ScopeRef × Heap :=
  let (frame, h) := h.newFrame closure.scope
  let bindings := (closure.params.map ParamSlot.name).zip values
  (frame, bindings.foldl (fun h b => h.define frame b.1 b.2) h)

def depthFault (maxDepth line : Nat) : Fault :=
  ⟨.stackOverflow, line, s!"maximum recursion depth of {maxDepth} exceeded"⟩

/-- Ends a call that nests too deep, and warns of it. -/
def refuseCall {α : Type} (maxDepth depth : Nat) (function : String) (line : Nat) : Run α := do
  Run.change fun w => w.warn (.depthLimit function depth)
  Run.fail (depthFault maxDepth line)

/-- Binds the parameters of a function in a new frame and runs its body there. -/
def runBody (block : ScopeRef → List Stmt → Run Flow) (closure : Closure) (args : List Value)
    (keywords : Keywords) (line : Nat) : Run Value := do
  let values ← Run.atLine line
    (Run.ofExcept (bindArguments closure.name closure.params args keywords))
  let frame ← Run.allocate fun h => newCallFrame h closure values
  match ← oneDeeper (block frame closure.body) with
  | .giveBack v => return v
  | _ => return .none

def enterCall (block : ScopeRef → List Stmt → Run Flow) (maxDepth : Nat) (closure : Closure)
    (args : List Value) (keywords : Keywords) (line : Nat) : Run Value := do
  let depth ← Run.view fun w => w.depth
  if maxDepth ≤ depth then refuseCall maxDepth depth closure.name line
  else runBody block closure args keywords line

end Scripting
