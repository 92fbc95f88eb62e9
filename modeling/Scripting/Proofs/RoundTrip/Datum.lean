/-
# Plain data

What a value is when its references are followed: nothing, a truth value, a whole
number, a text, a list of data, or a dict of data under names. `Heap.datum?` follows
the references of a value some levels deep and gives the tree, if the value is plain
and not deeper. The least number is left out: it is the only one without an opposite,
so it cannot be written with a sign in front of its digits.

A value whose references all lead somewhere stands for the same tree when the heap
grows (`Heap.Solid.keeps`).
-/
import Scripting.Heap
import Scripting.Proofs.Traverse

namespace Scripting

variable {h h' : Heap}

/-- Data without references. -/
inductive Datum where
  | none
  | bool (b : Bool)
  | int (n : Int64) (opposite : n ≠ Int64.minValue)
  | str (s : String)
  | list (items : List Datum)
  | dict (entries : List (String × Datum))

namespace Heap

/-- The data that a value stands for, if it is plain and of at most so many levels. -/
def datum? (h : Heap) : (levels : Nat) → Value → Option Datum
  | 0, _ => Option.none
  | levels + 1, v =>
    match v with
    | .none => some .none
    | .bool b => some (.bool b)
    | .int n => if hn : n ≠ Int64.minValue then some (.int n hn) else Option.none
    | .str s => some (.str s)
    | .list r => ((h.list r).toList.mapM (h.datum? levels)).map .list
    | .dict r =>
      ((h.dict r).entries.mapM fun e => (h.datum? levels e.2).map fun d => (e.1, d)).map .dict
    | .float _ | .function _ | .error _ => Option.none

theorem datum?_list_iff {levels : Nat} {r : ListRef} {d : Datum} :
    h.datum? (levels + 1) (.list r) = some d ↔ ∃ items, d = .list items ∧
      List.Forall₂ (fun v d => h.datum? levels v = some d) (h.list r).toList items := by
  rw [datum?, Option.map_eq_some_iff]
  constructor
  · rintro ⟨items, hitems, rfl⟩
    exact ⟨items, rfl, mapM_eq_some_iff.1 hitems⟩
  · rintro ⟨items, rfl, hitems⟩
    exact ⟨items, mapM_eq_some_iff.2 hitems, rfl⟩

theorem datum?_dict_iff {levels : Nat} {r : DictRef} {d : Datum} :
    h.datum? (levels + 1) (.dict r) = some d ↔ ∃ entries, d = .dict entries ∧
      List.Forall₂ (fun e d => e.1 = d.1 ∧ h.datum? levels e.2 = some d.2)
        (h.dict r).entries entries := by
  have hentry (e : String × Value) (d : String × Datum) :
      (h.datum? levels e.2).map (fun d => (e.1, d)) = some d ↔
        e.1 = d.1 ∧ h.datum? levels e.2 = some d.2 := by
    rw [Option.map_eq_some_iff]
    constructor
    · rintro ⟨d', hd', rfl⟩
      exact ⟨rfl, hd'⟩
    · rintro ⟨hkey, hd⟩
      exact ⟨d.2, hd, Prod.ext hkey rfl⟩
  rw [datum?, Option.map_eq_some_iff]
  simp only [mapM_eq_some_iff, hentry]
  constructor
  · rintro ⟨entries, hentries, rfl⟩
    exact ⟨entries, rfl, hentries⟩
  · rintro ⟨entries, rfl, hentries⟩
    exact ⟨entries, hentries, rfl⟩

end Heap

/-- No dict in the first levels of some data has a key twice. -/
def Datum.Keyed : Nat → Datum → Prop
  | 0, _ => True
  | levels + 1, .list items => ∀ d ∈ items, d.Keyed levels
  | levels + 1, .dict entries =>
    (entries.map Prod.fst).Nodup ∧ ∀ e ∈ entries, e.2.Keyed levels
  | _, _ => True

namespace Heap

/-- The data of a value have distinct keys, since tables have. -/
theorem keyed_of_datum? {h : Heap} : ∀ {levels : Nat} {v : Value} {d : Datum},
    h.datum? levels v = some d → d.Keyed levels
  | 0, _, _, _ => trivial
  | levels + 1, v, d, hd => by
    cases v with
    | list r =>
      obtain ⟨items, rfl, hitems⟩ := datum?_list_iff.1 hd
      intro d hmem
      obtain ⟨v, -, hv⟩ := exists_of_forall₂ hitems d hmem
      exact keyed_of_datum? hv
    | dict r =>
      obtain ⟨entries, rfl, hentries⟩ := datum?_dict_iff.1 hd
      have hkeys : entries.map Prod.fst = (h.dict r).entries.map Prod.fst := by
        refine List.forall₂_eq_eq_eq ▸ (List.forall₂_map_left_iff.2 (List.forall₂_map_right_iff.2 ?_))
        exact (hentries.imp fun _ _ h => h.1.symm).flip
      refine ⟨hkeys ▸ (h.dict r).distinct, fun e hmem => ?_⟩
      obtain ⟨v, -, -, hv⟩ := exists_of_forall₂ hentries e hmem
      exact keyed_of_datum? hv
    | none | bool | str =>
      cases hd
      trivial
    | int n =>
      unfold datum? at hd
      dsimp only at hd
      split at hd <;> cases hd
      trivial
    | float | function | error => cases hd

/-! ### Growing heaps -/

theorem getD_of_prefix {α : Type} {xs ys : Array α} (h : xs.toList <+: ys.toList) {i : Nat}
    (hi : i < xs.size) (default : α) : ys.getD i default = xs.getD i default := by
  obtain ⟨added, hadded⟩ := h
  have hys : ys = xs ++ added.toArray := Array.ext' (by simp [hadded])
  rw [hys, Array.getD_eq_getD_getElem?, Array.getD_eq_getD_getElem?, Array.getElem?_append_left hi]

/-- The lists and dicts are there as they were, and perhaps more of them. -/
structure Keeps (h h' : Heap) : Prop where
  lists : h.lists.toList <+: h'.lists.toList
  dicts : h.dicts.toList <+: h'.dicts.toList

namespace Keeps

theorem list_eq (g : h.Keeps h') {r : ListRef} (hr : r.id < h.lists.size) :
    h'.list r = h.list r :=
  getD_of_prefix g.lists hr #[]

theorem dict_eq (g : h.Keeps h') {r : DictRef} (hr : r.id < h.dicts.size) :
    h'.dict r = h.dict r :=
  getD_of_prefix g.dicts hr .empty

theorem lists_size (g : h.Keeps h') : h.lists.size ≤ h'.lists.size := by
  simpa using g.lists.length_le

theorem dicts_size (g : h.Keeps h') : h.dicts.size ≤ h'.dicts.size := by
  simpa using g.dicts.length_le

end Keeps

/-- Lists and dicts were added, and nothing else changed. -/
structure Grows (h h' : Heap) : Prop extends h.Keeps h' where
  functions : h'.functions = h.functions
  scopes : h'.scopes = h.scopes

namespace Grows

theorem refl (h : Heap) : h.Grows h := ⟨⟨List.prefix_rfl, List.prefix_rfl⟩, rfl, rfl⟩

theorem trans {h'' : Heap} (g : h.Grows h') (g' : h'.Grows h'') : h.Grows h'' :=
  ⟨⟨g.lists.trans g'.lists, g.dicts.trans g'.dicts⟩, g'.functions.trans g.functions,
    g'.scopes.trans g.scopes⟩

theorem newList (h : Heap) (items : Array Value) : h.Grows (h.newList items).2 :=
  ⟨⟨by simp [Heap.newList], List.prefix_rfl⟩, rfl, rfl⟩

theorem newDict (h : Heap) (entries : Table Value) : h.Grows (h.newDict entries).2 :=
  ⟨⟨List.prefix_rfl, by simp [Heap.newDict]⟩, rfl, rfl⟩

end Grows

/-- The references in the first levels of a value lead somewhere. -/
def Solid (h : Heap) : (levels : Nat) → Value → Prop
  | levels + 1, .list r => r.id < h.lists.size ∧ ∀ v ∈ (h.list r).toList, h.Solid levels v
  | levels + 1, .dict r => r.id < h.dicts.size ∧ ∀ e ∈ (h.dict r).entries, h.Solid levels e.2
  | _, _ => True

/-- What a solid value stands for stays as it is while its lists and dicts do. -/
theorem Solid.keeps {h h' : Heap} (g : h.Keeps h') : ∀ {levels : Nat} {v : Value},
    h.Solid levels v → h'.Solid levels v ∧ h'.datum? levels v = h.datum? levels v
  | 0, v, _ => ⟨by simp [Solid], rfl⟩
  | levels + 1, v, hv => by
    cases v with
    | list r =>
      obtain ⟨hr, hitems⟩ := hv
      have hlist := g.list_eq hr
      refine ⟨⟨Nat.lt_of_lt_of_le hr g.lists_size, fun v hmem => ?_⟩, ?_⟩
      · rw [hlist] at hmem
        exact (Solid.keeps g (hitems v hmem)).1
      · rw [datum?, datum?, hlist]
        congr 1
        exact mapM_congr_mem fun v hmem => (Solid.keeps g (hitems v hmem)).2
    | dict r =>
      obtain ⟨hr, hentries⟩ := hv
      have hdict := g.dict_eq hr
      refine ⟨⟨Nat.lt_of_lt_of_le hr g.dicts_size, fun e hmem => ?_⟩, ?_⟩
      · rw [hdict] at hmem
        exact (Solid.keeps g (hentries e hmem)).1
      · rw [datum?, datum?, hdict]
        congr 1
        exact mapM_congr_mem fun e hmem => by rw [(Solid.keeps g (hentries e hmem)).2]
    | _ => exact ⟨trivial, rfl⟩

end Heap

end Scripting
