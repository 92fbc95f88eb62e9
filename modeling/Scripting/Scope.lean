/-
# Looking names up and binding them

The chain of a scope is the scope and its parents, outwards. A parent was on the
heap before its children, so a chain ends. A name means its nearest binding on the
chain. An assignment changes the nearest binding, or binds a new name in the
nearest frame.
-/
import Scripting.Heap

namespace Scripting

variable (h : Heap) (r : ScopeRef)

namespace Heap

def newChild (h : Heap) (parent : ScopeRef) : ScopeRef × Heap :=
  h.newScope ⟨.empty, some parent, false⟩

/-- A scope without names for a call, inside the scope of the function. -/
def newFrame (h : Heap) (parent : ScopeRef) : ScopeRef × Heap :=
  h.newScope ⟨.empty, some parent, true⟩

def newGlobal (h : Heap) : ScopeRef × Heap := h.newScope ⟨.empty, none, true⟩

/-- The first scopes of a chain, as many as the bound allows. -/
def chainUpTo (h : Heap) : Nat → ScopeRef → List ScopeRef
  | 0, r => [r]
  | bound + 1, r =>
    match (h.scope r).parent with
    | some parent => r :: chainUpTo h bound parent
    | none => [r]

def chain : List ScopeRef := h.chainUpTo r.id r

def local? (name : String) : Option Value := (h.scope r).vars.get? name

def lookup (name : String) : Option Value :=
  (h.chain r).findSome? fun s => h.local? s name

def define (name : String) (value : Value) : Heap :=
  h.modifyVars r fun vars => vars.insert name value

/-- The nearest frame of a chain; its last scope if there is none. -/
def frameOf : ScopeRef :=
  let chain := h.chain r
  (chain.find? fun s => (h.scope s).isFrame).getD (chain.getLast?.getD r)

def defineInFrame (name : String) (value : Value) : Heap :=
  h.define (h.frameOf r) name value

/-- Changes the nearest binding of a name, or binds it in the nearest frame. -/
def assign (name : String) (value : Value) : Heap :=
  match (h.chain r).find? fun s => (h.scope s).vars.contains name with
  | some s => h.define s name value
  | none => h.defineInFrame r name value

def clearScope : Heap := h.modifyVars r fun _ => .empty

end Heap

end Scripting
