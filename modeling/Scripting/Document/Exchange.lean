/-
# Values and documents

Values that are plain data become documents and documents become values. Containers
beyond `displayDepth` levels, floats that are not finite, functions and errors are
no data.
-/
import Scripting.Document.Read
import Scripting.Document.Write
import Scripting.Value.Render

namespace Scripting

/-- How JSON texts are read and written. What surrounds an evaluation brings a codec with it; the
standard one is the reader and the writer of this library. -/
structure Document.Codec where
  read : String → Except String Document
  write : Document.Layout → Document → String

def Document.Codec.standard : Document.Codec := ⟨Document.read, Document.write⟩

def mapItems {α β : Type} (f : α → Except Fault β) : List α → Except Fault (List β)
  | [] => .ok []
  | a :: rest =>
    match f a with
    | .error e => .error e
    | .ok b =>
      match mapItems f rest with
      | .error e => .error e
      | .ok bs => .ok (b :: bs)

namespace Heap

/-- A value as a document, with some levels to go. -/
def toDocumentWithin (h : Heap) (levels : Nat) (v : Value) : Except Fault Document :=
  match levels with
  | 0 => .error (typeFault "value is nested too deeply to serialize")
  | levels + 1 =>
    match v with
    | .none => .ok .null
    | .bool b => .ok (.bool b)
    | .int n => .ok (.int n)
    | .float x =>
      if x.isFinite then .ok (.float x)
      else .error (typeFault s!"{floatText x} is not JSON serializable")
    | .str s => .ok (.text s)
    | .list r => (mapItems (h.toDocumentWithin levels) (h.list r).toList).map .array
    | .dict r =>
      let entry (e : String × Value) := (h.toDocumentWithin levels e.2).map fun d => (e.1, d)
      (mapItems entry (h.dict r).entries).map .object
    | .function _ | .error _ =>
      .error (typeFault s!"object of type {v.typeName} is not JSON serializable")

def toDocument (h : Heap) (v : Value) : Except Fault Document :=
  h.toDocumentWithin (displayDepth + 1) v

mutual

/-- The value of a document; its containers are new. -/
def ofDocument (h : Heap) : Document → Value × Heap
  | .null => (.none, h)
  | .bool b => (.bool b, h)
  | .int n => (.int n, h)
  | .float x => (.float x, h)
  | .text s => (.str s, h)
  | .array items =>
    let (values, h) := ofDocuments h items
    let (r, h) := h.newList values.toArray
    (.list r, h)
  | .object entries =>
    let (table, h) := ofEntries h entries .empty
    let (r, h) := h.newDict table
    (.dict r, h)

def ofDocuments (h : Heap) : List Document → List Value × Heap
  | [] => ([], h)
  | d :: rest =>
    let (v, h) := ofDocument h d
    let (values, h) := ofDocuments h rest
    (v :: values, h)

def ofEntries (h : Heap) : List (String × Document) → Table Value → Table Value × Heap
  | [], table => (table, h)
  | (key, d) :: rest, table =>
    let (v, h) := ofDocument h d
    ofEntries h rest (table.insert key v)

end

end Heap

end Scripting
