/-
# The heap

Lists, dicts, functions and scopes live on the heap and are named by references.
A reference is the number of things of its sort that were there before. Nothing is
ever taken off the heap, and a reference to nothing stands for something empty.
-/
import Scripting.Table
import Scripting.Value

namespace Scripting

/-- Names and their values. A frame is the scope of a whole script or of a call;
new names go there. -/
structure Scope where
  vars : Table Value
  parent : Option ScopeRef
  isFrame : Bool

instance : Inhabited Scope := ⟨⟨.empty, none, true⟩⟩

/-- What the references stand for. -/
structure Heap where
  lists : Array (Array Value)
  dicts : Array (Table Value)
  functions : Array Callable
  scopes : Array Scope

variable (h : Heap)

namespace Heap

def empty : Heap := ⟨#[], #[], #[], #[]⟩

def newList (items : Array Value) : ListRef × Heap :=
  (⟨h.lists.size⟩, { h with lists := h.lists.push items })

def list (r : ListRef) : Array Value := h.lists.getD r.id #[]

def modifyList (r : ListRef) (f : Array Value → Array Value) : Heap :=
  { h with lists := h.lists.modify r.id f }

theorem list_newList (items : Array Value) (r : ListRef) :
    (h.newList items).2.list r = if r = (h.newList items).1 then items else h.list r := by
  unfold Heap.list Heap.newList
  by_cases hr : r = ⟨h.lists.size⟩
  · simp [hr, Array.getD_eq_getD_getElem?]
  · have hid : r.id ≠ h.lists.size := fun hid => hr (congrArg ListRef.mk hid)
    simp [hr, Array.getD_eq_getD_getElem?, Array.getElem?_push, hid]

def newDict (entries : Table Value) : DictRef × Heap :=
  (⟨h.dicts.size⟩, { h with dicts := h.dicts.push entries })

def dict (r : DictRef) : Table Value := h.dicts.getD r.id .empty

def modifyDict (r : DictRef) (f : Table Value → Table Value) : Heap :=
  { h with dicts := h.dicts.modify r.id f }

def newFunction (f : Callable) : FunctionRef × Heap :=
  (⟨h.functions.size⟩, { h with functions := h.functions.push f })

def function? (r : FunctionRef) : Option Callable := h.functions[r.id]?

def newScope (s : Scope) : ScopeRef × Heap :=
  (⟨h.scopes.size⟩, { h with scopes := h.scopes.push s })

def scope (r : ScopeRef) : Scope := h.scopes.getD r.id default

def modifyVars (r : ScopeRef) (f : Table Value → Table Value) : Heap :=
  { h with scopes := h.scopes.modify r.id fun s => { s with vars := f s.vars } }

end Heap

end Scripting
