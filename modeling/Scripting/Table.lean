/-
# Tables in insertion order

A table maps distinct names to values and remembers in which order the names came.
Putting a value under a name that is there replaces the value and keeps the place;
a new name goes to the end. Taking a name out closes the gap.
-/

namespace Scripting

/-- Values under distinct names, in the order in which the names came. -/
structure Table (α : Type) where
  entries : List (String × α)
  distinct : (entries.map Prod.fst).Nodup

namespace Table

variable {α : Type}

def empty : Table α := ⟨[], List.nodup_nil⟩

instance : Inhabited (Table α) := ⟨empty⟩

def keys (t : Table α) : List String := t.entries.map Prod.fst

def values (t : Table α) : List α := t.entries.map Prod.snd

def size (t : Table α) : Nat := t.entries.length

def isEmpty (t : Table α) : Bool := t.entries.isEmpty

def find (name : String) : List (String × α) → Option α
  | [] => none
  | e :: rest => if e.1 = name then some e.2 else find name rest

def get? (t : Table α) (name : String) : Option α := find name t.entries

def contains (t : Table α) (name : String) : Bool := t.entries.any fun e => e.1 == name

/-- The entries with a value put under a name: in its place if the name is there,
at the end otherwise. -/
def put (name : String) (value : α) : List (String × α) → List (String × α)
  | [] => [(name, value)]
  | e :: rest => if e.1 = name then (name, value) :: rest else e :: put name value rest

theorem mem_keys_put {name key : String} {value : α} {entries : List (String × α)} :
    key ∈ (put name value entries).map Prod.fst ↔ key = name ∨ key ∈ entries.map Prod.fst := by
  induction entries with
  | nil => simp [put]
  | cons e rest ih =>
    by_cases h : e.1 = name
    · simp [put, h]
    · simp only [put, h, if_false, List.map_cons, List.mem_cons, ih]
      grind

theorem nodup_put {name : String} {value : α} {entries : List (String × α)}
    (h : (entries.map Prod.fst).Nodup) : ((put name value entries).map Prod.fst).Nodup := by
  induction entries with
  | nil => simp [put]
  | cons e rest ih =>
    by_cases same : e.1 = name
    · subst same
      simpa [put] using h
    · simp only [put, same, if_false, List.map_cons, List.nodup_cons] at h ⊢
      refine ⟨fun member => ?_, ih h.2⟩
      rcases mem_keys_put.1 member with eq | member
      · exact same eq
      · exact h.1 member

/-- A name that is not there goes to the end. -/
theorem put_of_not_mem {name : String} {value : α} {entries : List (String × α)}
    (h : name ∉ entries.map Prod.fst) : put name value entries = entries ++ [(name, value)] := by
  induction entries with
  | nil => rfl
  | cons e rest ih =>
    rw [List.map_cons, List.mem_cons, not_or] at h
    rw [put, if_neg (Ne.symm h.1), ih h.2, List.cons_append]

def insert (t : Table α) (name : String) (value : α) : Table α :=
  ⟨put name value t.entries, nodup_put t.distinct⟩

def erase (t : Table α) (name : String) : Table α where
  entries := t.entries.filter fun e => e.1 != name
  distinct := t.distinct.sublist (List.filter_sublist.map Prod.fst)

/-- The table of some entries; of two under one name the later wins. -/
def ofList (entries : List (String × α)) : Table α :=
  entries.foldl (fun t e => t.insert e.1 e.2) empty

theorem find_put (name key : String) (value : α) (entries : List (String × α)) :
    find key (put name value entries) = if key = name then some value else find key entries := by
  induction entries with
  | nil => simp [put, find, eq_comm]
  | cons e rest ih =>
    by_cases same : e.1 = name
    · by_cases h : key = name <;> grind [put, find]
    · by_cases h : key = name <;> grind [put, find]

theorem get?_insert (t : Table α) (name key : String) (value : α) :
    (t.insert name value).get? key = if key = name then some value else t.get? key :=
  find_put name key value t.entries

theorem keys_insert (t : Table α) (name : String) (value : α) :
    (t.insert name value).keys = if name ∈ t.keys then t.keys else t.keys ++ [name] := by
  suffices named : ∀ entries : List (String × α), (put name value entries).map Prod.fst =
      if name ∈ entries.map Prod.fst then entries.map Prod.fst
      else entries.map Prod.fst ++ [name] from named t.entries
  intro entries
  induction entries with
  | nil => simp [put]
  | cons e rest ih =>
    by_cases same : e.1 = name
    · subst same
      simp [put]
    · simp only [put, same, if_false, List.map_cons, ih, List.mem_cons]
      by_cases h : name ∈ rest.map Prod.fst
      · simp [h]
      · simp [h, Ne.symm same]

end Table

end Scripting
