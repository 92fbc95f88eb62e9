/-
# Running

An evaluation runs in a world: the heap, the imported modules, the output, the
cancel token and the moments that have passed, how many script functions are active,
which faults are being handled, what host functions recorded, and what the log was
warned of. A run ends with a value, with a fault, or because its step budget is used
up; the first two leave a world behind.
-/
import Scripting.CancelToken
import Scripting.Scope
import Scripting.Sink

namespace Scripting

/-- What an evaluation warns its host of: a checkpoint that the token stopped, and a
call that nests too deep. -/
inductive Warning where
  | cancelled (line : Nat) (reason : String) (deadline : Option Nat)
  | depthLimit (function : String) (depth : Nat)
  deriving DecidableEq, Repr

/-- What a run reads and changes. The faults being handled have the innermost
first, the warnings the latest. -/
structure World where
  heap : Heap
  modules : Table Value
  output : Sink
  token : CancelToken
  now : Nat
  depth : Nat
  handling : List Fault
  journal : Array Value
  warnings : List Warning

def World.fresh (token : CancelToken) (mode : Sink.Mode) : World where
  heap := .empty
  modules := .empty
  output := .fresh mode
  token := token
  now := 0
  depth := 0
  handling := []
  journal := #[]
  warnings := []

def World.warn (w : World) (warning : Warning) : World :=
  { w with warnings := warning :: w.warnings }

def World.withList (w : World) (items : Array Value) : World :=
  { w with heap := (w.heap.newList items).2 }

def World.nextList (w : World) : ListRef := ⟨w.heap.lists.size⟩

theorem World.list_withList (w : World) (items : Array Value) (r : ListRef) :
    (w.withList items).heap.list r = if r = w.nextList then items else w.heap.list r :=
  w.heap.list_newList items r

inductive Outcome (α : Type) where
  | ok (value : α) (world : World)
  | fault (f : Fault) (world : World)
  | exhausted

def Run (α : Type) : Type := World → Outcome α

namespace Run

variable {α β : Type}

@[always_inline, inline]
protected def pure (a : α) : Run α := fun w => .ok a w

@[always_inline, inline]
protected def bind (act : Run α) (next : α → Run β) : Run β := fun w =>
  match act w with
  | .ok a w => next a w
  | .fault f w => .fault f w
  | .exhausted => .exhausted

instance : Monad Run where
  pure := Run.pure
  bind := Run.bind

theorem bind_of_ok {act : Run α} {a : α} {w w' : World} (h : act w = .ok a w')
    (next : α → Run β) : (act >>= next) w = next a w' := by
  change Run.bind act next w = next a w'
  unfold Run.bind
  rw [h]

theorem bind_of_fault {act : Run α} {f : Fault} {w w' : World} (h : act w = .fault f w')
    (next : α → Run β) : (act >>= next) w = .fault f w' := by
  change Run.bind act next w = .fault f w'
  unfold Run.bind
  rw [h]

instance : Inhabited (Run α) := ⟨fun _ => .exhausted⟩

@[always_inline, inline]
def fail (f : Fault) : Run α := fun w => .fault f w

def exhausted : Run α := fun _ => .exhausted

@[always_inline, inline]
def ofExcept (result : Except Fault α) : Run α := fun w =>
  match result with
  | .ok a => .ok a w
  | .error f => .fault f w

@[always_inline, inline]
def view (f : World → α) : Run α := fun w => .ok (f w) w

@[always_inline, inline]
def inspect (f : Heap → Except Fault α) : Run α := fun w =>
  match f w.heap with
  | .ok a => .ok a w
  | .error e => .fault e w

@[always_inline, inline]
def change (f : World → World) : Run Unit := fun w => .ok () (f w)

@[always_inline, inline]
def changeHeap (f : Heap → Heap) : Run Unit := fun w => .ok () { w with heap := f w.heap }

@[always_inline, inline]
def allocate (f : Heap → α × Heap) : Run α := fun w =>
  let r := f w.heap
  .ok r.1 { w with heap := r.2 }

@[always_inline, inline]
def attempt (act : Run α) : Run (Except Fault α) := fun w =>
  match act w with
  | .ok a w => .ok (.ok a) w
  | .fault f w => .ok (.error f) w
  | .exhausted => .exhausted

/-- Attaches a line to the fault of a computation, if it has none. -/
@[always_inline, inline]
def atLine (line : Nat) (act : Run α) : Run α := fun w =>
  match act w with
  | .ok a w => .ok a w
  | .fault f w => .fault (f.atLine line) w
  | .exhausted => .exhausted

def newList (items : Array Value) : Run Value := do
  let r ← allocate fun h => h.newList items
  return .list r

/-- A new list for each row, behind those made already. -/
def newRows (done : Array Value) : List (List Value) → Run (Array Value)
  | [] => pure done
  | row :: rest => do
    let v ← newList row.toArray
    newRows (done.push v) rest

def newTable (rows : List (List Value)) : Run Value := do
  let items ← newRows #[] rows
  newList items

def newDict (entries : Table Value) : Run Value := do
  let r ← allocate fun h => h.newDict entries
  return .dict r

def newFunction (f : Callable) : Run Value := do
  let r ← allocate fun h => h.newFunction f
  return .function r

def write (text : String) : Run Unit := fun w =>
  match w.output.write text with
  | .ok sink => .ok () { w with output := sink }
  | .error f => .fault f w

end Run

end Scripting
