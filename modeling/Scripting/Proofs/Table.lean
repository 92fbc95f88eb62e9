/-
# Tables as maps

What a table holds under a name does not depend on the order of its entries, because no
name comes twice (`Table.get?_of_perm`). Taking a name out leaves the others as they were,
and it takes back what an insertion under that name did (`Table.erase_insert`).
-/
import Scripting.Table

namespace Scripting

variable {name : String}

namespace Table

variable {α : Type}

theorem find_eq_none_iff {entries : List (String × α)} :
    find name entries = none ↔ name ∉ entries.map Prod.fst := by
  induction entries with
  | nil => simp [find]
  | cons e rest ih =>
    by_cases he : e.1 = name
    · simp [find, he]
    · simp [find, he, ih, Ne.symm he]

theorem mem_of_find {a : α} {entries : List (String × α)}
    (h : find name entries = some a) : (name, a) ∈ entries := by
  induction entries with
  | nil => cases h
  | cons e rest ih =>
    rw [find] at h
    split at h
    next he =>
      cases h
      rw [← he]
      exact .head _
    · exact .tail _ (ih h)

theorem find_of_mem {entries : List (String × α)} (hdistinct : (entries.map Prod.fst).Nodup)
    {e : String × α} (he : e ∈ entries) : find e.1 entries = some e.2 := by
  induction entries with
  | nil => cases he
  | cons e' rest ih =>
    rw [List.map_cons, List.nodup_cons] at hdistinct
    rw [find]
    rcases List.mem_cons.1 he with rfl | he
    · rw [if_pos rfl]
    · have hne : e'.1 ≠ e.1 := fun h => hdistinct.1 (h ▸ List.mem_map_of_mem he)
      rw [if_neg hne, ih hdistinct.2 he]

theorem get?_eq_none_iff {t : Table α} : t.get? name = none ↔ name ∉ t.keys :=
  find_eq_none_iff

theorem isSome_get?_iff {t : Table α} :
    (t.get? name).isSome = true ↔ name ∈ t.keys := by
  rw [← Decidable.not_iff_not, ← get?_eq_none_iff]
  simp

theorem contains_eq_isSome (t : Table α) (name : String) :
    t.contains name = (t.get? name).isSome := by
  rw [Bool.eq_iff_iff, isSome_get?_iff, contains, keys]
  simp

theorem get?_of_perm {t u : Table α} (h : t.entries.Perm u.entries) (name : String) :
    t.get? name = u.get? name := by
  cases hname : t.get? name with
  | some a => exact (find_of_mem u.distinct (h.mem_iff.1 (mem_of_find hname))).symm
  | none =>
    rw [get?_eq_none_iff, keys, (h.map Prod.fst).mem_iff] at hname
    exact (get?_eq_none_iff.2 hname).symm

/-! ### Taking names out -/

theorem keys_erase (t : Table α) (name : String) :
    (t.erase name).keys = t.keys.filter fun key => key != name := by
  rw [keys, keys, erase, List.filter_map]
  rfl

theorem get?_erase_of_ne (t : Table α) {key : String} (h : key ≠ name) :
    (t.erase name).get? key = t.get? key := by
  cases hkey : t.get? key with
  | some a =>
    have hmem : (key, a) ∈ (t.erase name).entries :=
      List.mem_filter.2 ⟨mem_of_find hkey, by simpa using h⟩
    exact find_of_mem (t.erase name).distinct hmem
  | none =>
    rw [get?_eq_none_iff] at hkey ⊢
    rw [keys_erase]
    exact fun hmem => hkey (List.mem_filter.1 hmem).1

theorem erase_insert (t : Table α) (name : String) (value : α) :
    (t.insert name value).erase name = t.erase name := by
  suffices hput : ∀ entries : List (String × α),
      (put name value entries).filter (fun e => e.1 != name) =
        entries.filter fun e => e.1 != name by
    unfold erase insert
    simp only [hput]
  intro entries
  induction entries with
  | nil => simp [put]
  | cons e rest ih =>
    by_cases he : e.1 = name
    · simp [put, he]
    · simp [put, he, ih]

end Table

end Scripting
