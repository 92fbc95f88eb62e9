/-
# An import does all or nothing, and only once

An import fails where something on the path of its name is not a package. That can only be
something that was there before: in a package that the import makes nothing is in the way
(`importUnder_of_open`). So an import that fails has made nothing (`importUnder_fault`).

An import that succeeds leaves its whole path bound (`importUnder_binds`), since it never takes a
binding away, whichever dicts on the path are the same. And where the whole path is bound
an import has nothing to do (`importUnder_of_bound`).

The modules and the entries of a dict are handled alike; both are places that values can be found
in (`Place`).
-/
import Scripting.Proofs.Imports
import Scripting.Proofs.Faults.Proper

namespace Scripting

variable (w : World)

/-! ### Places -/

/-- Where a part of a module's name is looked for: among the modules, or in a dict. -/
inductive Place where
  | modules
  | dict (r : DictRef)
  deriving DecidableEq

/-- The reference that the next new dict gets. -/
def World.nextDict : DictRef := ⟨w.heap.dicts.size⟩

def World.find : Place → String → Option Value
  | .modules, name => w.modules.get? name
  | .dict r, name => (w.heap.dict r).get? name

/-- The world with a new dict bound in a place. -/
def World.plant : Place → String → Table Value → World
  | .modules, name, own => w.plantRoot name own
  | .dict r, name, own => w.plantEntry r name own

def importUnder (members : Table Value) : Place → List String → Run Unit
  | _, [], w => .ok () w
  | place, [leaf], w =>
    match w.find place leaf with
    | some _ => .ok () w
    | none => .ok () (w.plant place leaf members)
  | place, part :: next :: rest, w =>
    match w.find place part with
    | some (.dict r) => importUnder members (.dict r) (next :: rest) w
    | some _ => .fault (importFault s!"'{part}' is not a package") w
    | none => importUnder members (.dict w.nextDict) (next :: rest) (w.plant place part .empty)

theorem importInto_eq (library : Library) : ∀ (parts : List String) (r : DictRef) (w : World),
    importInto r library parts w = importUnder library.members (.dict r) parts w
  | [], _, _ => rfl
  | [leaf], r, w => by
    rw [importInto, importUnder, World.find]
    dsimp only [bind, Run.bind, Run.view]
    rw [Table.contains_eq_isSome]
    cases (w.heap.dict r).get? leaf <;> rfl
  | part :: next :: rest, r, w => by
    have ih := importInto_eq library (next :: rest)
    rw [importInto.eq_3 _ _ _ _ (List.cons_ne_nil _ _), importUnder]
    dsimp only [bind, Run.bind, Run.view, World.find]
    rcases hpart : (w.heap.dict r).get? part with _ | v
    · exact ih _ _
    · cases v with
      | dict r' => exact ih r' w
      | _ => rfl

theorem importModule_eq {env : Environment} {name : String} {library : Library}
    (hlibrary : env.libraries.get? name = some library) (w : World) :
    importModule env name w = importUnder library.members .modules (modulePath name) w := by
  obtain ⟨head, rest, hname⟩ : ∃ head rest, Text.pieces name "." = head :: rest :=
    List.exists_cons_of_ne_nil (modulePath_ne_nil name)
  unfold importModule modulePath
  rw [hlibrary]
  dsimp only
  rw [hname]
  cases rest with
  | nil =>
    rw [importUnder, World.find]
    dsimp only [bind, Run.bind, Run.view]
    rw [Table.contains_eq_isSome]
    cases w.modules.get? head <;> rfl
  | cons next rest =>
    rw [importUnder, World.find]
    dsimp only [bind, Run.bind, Run.view]
    rcases w.modules.get? head with _ | v
    · exact importInto_eq library (next :: rest) _ _
    · cases v with
      | dict r => exact importInto_eq library (next :: rest) r w
      | _ => rfl

/-! ### What is planted -/

def World.Has : Place → Prop
  | .modules => True
  | .dict r => r.id < w.heap.dicts.size

theorem Heap.dict_modifyDict_of_le {h : Heap} {r : DictRef} (hr : h.dicts.size ≤ r.id)
    (f : Table Value → Table Value) (r' : DictRef) : (h.modifyDict r f).dict r' = h.dict r' := by
  unfold Heap.dict Heap.modifyDict
  rw [Array.getD_eq_getD_getElem?, Array.getD_eq_getD_getElem?, Array.getElem?_modify]
  split
  next heq => rw [← heq, Array.getElem?_eq_none hr, Option.map_none]
  · rfl

namespace World

variable {w : World} {place p : Place} {name x : String} {own : Table Value}

theorem get?_newDict (own : Table Value) (r : DictRef) (x : String) :
    ((w.heap.newDict own).2.dict r).get? x =
      if r = w.nextDict then own.get? x else (w.heap.dict r).get? x := by
  rw [Heap.dict_newDict, apply_ite (fun t : Table Value => t.get? x)]
  rfl

theorem find_plant (hplace : w.Has place) :
    (w.plant place name own).find p x =
      if p = place ∧ x = name then some (.dict w.nextDict)
      else if p = .dict w.nextDict then own.get? x else w.find p x := by
  cases place with
  | modules =>
    cases p with
    | modules => simp [plant, plantRoot, find, Table.get?_insert, nextDict, Heap.newDict]
    | dict d =>
      change ((w.heap.newDict own).2.dict d).get? x = _
      simp [get?_newDict, find]
  | dict r =>
    cases p with
    | modules => simp [plant, plantEntry, find]
    | dict d =>
      have hold : r ≠ w.nextDict := fun h => Nat.lt_irrefl _ (h ▸ hplace)
      have hvalid : r.id < (w.heap.newDict own).2.dicts.size := by
        rw [Heap.size_newDict]
        exact Nat.lt_succ_of_lt hplace
      change (((w.heap.newDict own).2.modifyDict r _).dict d).get? x = _
      rw [Heap.dict_modifyDict hvalid]
      by_cases hd : d = r
      · subst hd
        simp only [if_true, Table.get?_insert, get?_newDict, if_neg hold, find, true_and,
          Place.dict.injEq]
        rfl
      · simp only [get?_newDict, find, Place.dict.injEq, hd, false_and, if_false]

/-- What is found after a new dict was bound is the new dict, or in it, or was there before. -/
theorem find_plant_cases {v : Value} (h : (w.plant place name own).find p x = some v) :
    v = .dict w.nextDict ∨ own.get? x = some v ∨ w.find p x = some v := by
  have hnew {r : DictRef} (h : ((w.heap.newDict own).2.dict r).get? x = some v) :
      own.get? x = some v ∨ (w.heap.dict r).get? x = some v := by
    rw [get?_newDict] at h
    split at h
    · exact .inl h
    · exact .inr h
  have hinsert {t : Table Value} (h : (t.insert name (.dict w.nextDict)).get? x = some v) :
      v = .dict w.nextDict ∨ t.get? x = some v := by
    rw [Table.get?_insert] at h
    split at h
    · exact .inl (Option.some.inj h).symm
    · exact .inr h
  cases place with
  | modules =>
    cases p with
    | modules => exact (hinsert h).imp_right .inr
    | dict d => exact .inr (hnew h)
  | dict r =>
    cases p with
    | modules => exact .inr (.inr h)
    | dict d =>
      change (((w.heap.newDict own).2.modifyDict r _).dict d).get? x = some v at h
      rcases Nat.lt_or_ge r.id (w.heap.newDict own).2.dicts.size with hr | hr
      · rw [Heap.dict_modifyDict hr] at h
        split at h
        next hd => exact (hinsert h).imp_right fun h => hd ▸ hnew h
        · exact .inr (hnew h)
      · rw [Heap.dict_modifyDict_of_le hr] at h
        exact .inr (hnew h)

end World

/-! ### Imports that fail -/

/-- From some dict on there are only dicts in the dicts, and these are no older. -/
structure World.OpenFrom (w : World) (n : Nat) : Prop where
  le : n ≤ w.heap.dicts.size
  dicts : ∀ {r : DictRef} {name : String} {v : Value}, n ≤ r.id →
    w.find (.dict r) name = some v → ∃ r', v = .dict r' ∧ n ≤ r'.id

theorem World.find_of_le {w : World} {r : DictRef} (hr : w.heap.dicts.size ≤ r.id) (name : String) :
    w.find (.dict r) name = none := by
  rw [World.find, Heap.dict, Array.getD_eq_getD_getElem?, Array.getElem?_eq_none hr]
  rfl

theorem World.openFrom_nextDict : w.OpenFrom w.nextDict.id := by
  refine ⟨Nat.le_refl _, fun {r name v} hr hfind => ?_⟩
  rw [World.find_of_le hr] at hfind
  cases hfind

theorem World.size_plant (place : Place) (name : String) (own : Table Value) :
    (w.plant place name own).heap.dicts.size = w.heap.dicts.size + 1 := by
  cases place with
  | modules => exact Heap.size_newDict _ _
  | dict r => exact Array.size_modify.trans (Heap.size_newDict _ _)

theorem World.OpenFrom.plant {w : World} {n : Nat} (hw : w.OpenFrom n) (place : Place)
    (name : String) : (w.plant place name .empty).OpenFrom n := by
  refine ⟨?_, fun {r x v} hr hfind => ?_⟩
  · rw [w.size_plant]
    exact Nat.le_succ_of_le hw.le
  rcases find_plant_cases hfind with hnew | hown | hold
  · exact ⟨_, hnew, hw.le⟩
  · cases hown
  · exact hw.dicts hr hold

theorem importUnder_of_open (members : Table Value) {n : Nat} : ∀ (parts : List String)
    {r : DictRef} {w : World}, w.OpenFrom n → n ≤ r.id → ∃ w', importUnder members (.dict r) parts w = .ok () w'
  | [], r, w, _, _ => ⟨w, rfl⟩
  | [leaf], r, w, _, _ => by
    rw [importUnder]
    split
    · exact ⟨_, rfl⟩
    · exact ⟨_, rfl⟩
  | part :: next :: rest, r, w, hw, hr => by
    rw [importUnder]
    cases hpart : w.find (.dict r) part with
    | none => exact importUnder_of_open members (next :: rest) (hw.plant _ part) hw.le
    | some v =>
      obtain ⟨r', rfl, hr'⟩ := hw.dicts hr hpart
      exact importUnder_of_open members (next :: rest) hw hr'

/-- An import that fails has changed nothing. -/
theorem importUnder_fault (members : Table Value) : ∀ (parts : List String) {place : Place}
    {w w' : World} {f : Fault}, importUnder members place parts w = .fault f w' → w' = w
  | [], place, w, w', f, h => by cases h
  | [leaf], place, w, w', f, h => by
    rw [importUnder] at h
    split at h <;> cases h
  | part :: next :: rest, place, w, w', f, h => by
    rw [importUnder] at h
    split at h
    · exact importUnder_fault members (next :: rest) h
    · cases h
      rfl
    -- The package that was missing is new, and from there on the import succeeds.
    obtain ⟨w₁, hok⟩ := importUnder_of_open members (next :: rest)
      (w.openFrom_nextDict.plant place part) (Nat.le_refl _)
    rw [hok] at h
    cases h

/-! ### Imports that succeed -/

/-- The whole path of a name is bound from a place on. -/
def World.Bound (w : World) : Place → List String → Prop
  | _, [] => True
  | place, [leaf] => (w.find place leaf).isSome = true
  | place, part :: next :: rest =>
    ∃ r, w.find place part = some (.dict r) ∧ w.Bound (.dict r) (next :: rest)

/-- Every dict that is bound as a module or in a dict is there. -/
def World.Grounded : Prop :=
  ∀ {place : Place} {name : String} {r : DictRef}, w.find place name = some (.dict r) →
    w.Has (.dict r)

/-- Where the whole path is bound, an import does nothing. -/
theorem importUnder_of_bound (members : Table Value) : ∀ (parts : List String) {place : Place}
    {w : World}, w.Bound place parts → importUnder members place parts w = .ok () w
  | [], _, _, _ => rfl
  | [leaf], place, w, h => by
    obtain ⟨v, hv⟩ := Option.isSome_iff_exists.1 h
    rw [importUnder, hv]
  | part :: next :: rest, place, w, h => by
    obtain ⟨r, hpart, hrest⟩ := h
    rw [importUnder, hpart]
    exact importUnder_of_bound members (next :: rest) hrest

def World.Extends (w w' : World) : Prop :=
  ∀ {place : Place} {name : String} {v : Value}, w.find place name = some v →
    w'.find place name = some v

theorem World.extends_plant {w : World} {place : Place} {name : String} (hplace : w.Has place)
    (hname : w.find place name = none) (own : Table Value) :
    w.Extends (w.plant place name own) := by
  intro p x v hfind
  rw [find_plant hplace, if_neg, if_neg, hfind]
  · rintro rfl
    rw [World.find_of_le (r := w.nextDict) (Nat.le_refl _)] at hfind
    cases hfind
  · rintro ⟨rfl, rfl⟩
    rw [hname] at hfind
    cases hfind

theorem World.Grounded.plant {w : World} (hw : w.Grounded) (place : Place) (name : String) :
    (w.plant place name .empty).Grounded := by
  intro p x r hfind
  rw [World.Has, w.size_plant]
  rcases find_plant_cases hfind with hnew | hown | hold
  · cases hnew
    exact Nat.lt_succ_self _
  · cases hown
  · exact Nat.lt_succ_of_lt (hw hold)

/-- An import that succeeds leaves its whole path bound, and what was bound as it was. -/
theorem importUnder_binds (members : Table Value) : ∀ (parts : List String) {place : Place}
    {w w' : World}, w.Grounded → w.Has place → importUnder members place parts w = .ok () w' →
    w.Extends w' ∧ w'.Bound place parts
  | [], place, w, w', _, _, h => by
    cases h
    exact ⟨id, trivial⟩
  | [leaf], place, w, w', _, hplace, h => by
    rw [importUnder] at h
    split at h
    next v hv =>
      cases h
      exact ⟨id, Option.isSome_iff_exists.2 ⟨v, hv⟩⟩
    next hnone =>
      cases h
      refine ⟨World.extends_plant hplace hnone members, ?_⟩
      rw [World.Bound, World.find_plant hplace, if_pos ⟨rfl, rfl⟩]
      rfl
  | part :: next :: rest, place, w, w', hw, hplace, h => by
    rw [importUnder] at h
    split at h
    next r hpart =>
      obtain ⟨hextends, hbound⟩ := importUnder_binds members (next :: rest) hw (hw hpart) h
      exact ⟨hextends, r, hextends hpart, hbound⟩
    · cases h
    next hnone =>
      have hnew : (w.plant place part .empty).find place part = some (.dict w.nextDict) := by
        rw [World.find_plant hplace, if_pos ⟨rfl, rfl⟩]
      obtain ⟨hextends, hbound⟩ := importUnder_binds members (next :: rest) (hw.plant place part)
        (hw.plant place part hnew) h
      exact ⟨fun hfind => hextends (World.extends_plant hplace hnone .empty hfind), w.nextDict,
        hextends hnew, hbound⟩

/-- An import does all or nothing, and only once. It succeeds or fails. If it fails, the world
is exactly as before. If it succeeds, the whole path of its name is bound, and when it is done
again it succeeds and leaves the world exactly as it is. Dicts may be shared or contain
themselves, as long as no reference to a dict leads nowhere. -/
theorem import_atomic_idempotent (env : Environment) (name : String) (w : World) :
    importModule env name w ≠ .exhausted ∧
    (∀ f w', importModule env name w = .fault f w' → w' = w) ∧
    (w.Grounded → ∀ w', importModule env name w = .ok () w' →
      w'.Bound .modules (modulePath name) ∧ importModule env name w' = .ok () w') := by
  have hends : importModule env name w ≠ .exhausted := by
    intro hexhausted
    have hsteady := (importModule_proper env name).steady w
    rw [hexhausted] at hsteady
    exact hsteady
  cases hlibrary : env.libraries.get? name with
  | none =>
    have hnone (w : World) : importModule env name w =
        .fault (importFault s!"no module named '{name}'") w := by
      rw [importModule, hlibrary]
      rfl
    refine ⟨hends, fun f w' h => ?_, fun _ w' h => ?_⟩
    · rw [hnone] at h
      cases h
      rfl
    · rw [hnone] at h
      cases h
  | some library =>
    refine ⟨hends, fun f w' h => ?_, fun hw w' h => ?_⟩
    · rw [importModule_eq hlibrary] at h
      exact importUnder_fault library.members (modulePath name) h
    rw [importModule_eq hlibrary] at h ⊢
    obtain ⟨-, hbound⟩ := importUnder_binds library.members (modulePath name) hw
      (show w.Has .modules from trivial) h
    exact ⟨hbound, importUnder_of_bound library.members (modulePath name) hbound⟩

/-- A module that contains itself and a number, under two names. -/
def Sample.cyclicModules : World :=
  { World.fresh .live .capture with
    heap := { Heap.empty with dicts := #[.ofList [("self", .dict ⟨0⟩), ("n", .int 1)]] }
    modules := .ofList [("a", .dict ⟨0⟩), ("b", .dict ⟨0⟩)] }

/-- Libraries below the module: one inside it, one inside the number. -/
def Sample.librariesBelow : Environment :=
  let inside : Library := ⟨"a.self.c.d", .ofList [("m", .int 1)]⟩
  let below : Library := ⟨"a.n.d", .empty⟩
  (((Session.build Sample.body {}).registerLibrary inside).registerLibrary below).env

theorem Sample.cyclicModules_grounded : Sample.cyclicModules.Grounded := by
  have hthere {t : Table Value} (ht : t.values.all (fun v => v matches .dict ⟨0⟩ | .int _) = true)
      {name : String} {r : DictRef} (h : t.get? name = some (.dict r)) :
      Sample.cyclicModules.Has (.dict r) := by
    have hv := List.all_eq_true.1 ht _ (List.mem_map_of_mem (Table.mem_of_find h))
    cases r with
    | mk id =>
      cases id with
      | zero => exact Nat.zero_lt_one
      | succ n => cases hv
  intro place name r hfind
  cases place with
  | modules => exact hthere rfl hfind
  | dict d =>
    rcases Nat.lt_or_ge d.id 1 with hd | hd
    · obtain rfl : d = ⟨0⟩ := congrArg DictRef.mk (Nat.lt_one_iff.1 hd)
      exact hthere (t := Sample.cyclicModules.heap.dict ⟨0⟩) rfl hfind
    · have hsize : Sample.cyclicModules.heap.dicts.size ≤ d.id := hd
      rw [World.find_of_le hsize] at hfind
      cases hfind

/-- The library inside is imported once and for all, the other one not at all. -/
theorem import_atomic_idempotent_cyclic :
    let env := Sample.librariesBelow
    let w := Sample.cyclicModules
    w.Grounded ∧
      (∃ w', importModule env "a.self.c.d" w = .ok () w' ∧
        w'.Bound .modules ["a", "self", "c", "d"] ∧ importModule env "a.self.c.d" w' = .ok () w') ∧
      ∃ f, importModule env "a.n.d" w = .fault f w := by
  intro env w
  have hw : w.Grounded := Sample.cyclicModules_grounded
  have hends {α : Type} {o : Outcome α} (h : (o matches .ok ..) = true) : ∃ a w', o = .ok a w' := by
    cases o with
    | ok a w' => exact ⟨a, w', rfl⟩
    | _ => cases h
  have hfails {α : Type} {o : Outcome α} (h : (o matches .fault ..) = true) :
      ∃ f w', o = .fault f w' := by
    cases o with
    | fault f w' => exact ⟨f, w', rfl⟩
    | _ => cases h
  obtain ⟨_, w₁, hinside⟩ : ∃ a w', importModule env "a.self.c.d" w = .ok a w' :=
    hends (by decide +kernel)
  obtain ⟨f, w₂, hbelow⟩ : ∃ f w', importModule env "a.n.d" w = .fault f w' :=
    hfails (by decide +kernel)
  obtain ⟨-, -, hagain⟩ := import_atomic_idempotent env "a.self.c.d" w
  obtain ⟨-, hsame, -⟩ := import_atomic_idempotent env "a.n.d" w
  have hpath : modulePath "a.self.c.d" = ["a", "self", "c", "d"] := by decide +kernel
  refine ⟨hw, ⟨w₁, hinside, ?_⟩, f, ?_⟩
  · rw [← hpath]
    exact hagain hw w₁ hinside
  · rw [hbelow, hsame f w₂ hbelow]

end Scripting
