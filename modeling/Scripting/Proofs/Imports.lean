/-
# What imports make reachable

The packages that imports make form a forest: every package has a path, holds the packages one
step below it and, if a library put it there, the members of that library. Each package is in a
dict of its own (`Grown`). An import goes down the path of its name and adds the packages that are
missing, the last one with the members of the library (`importModule_grows`). It never changes a
package that is there.

So a library that is imported behind one below it finds a package in its place, and its members
stay out of reach (`import_below_first`). Apart from that, importing makes every member reachable
(`importAll_reaches`).
-/
import Scripting.Proofs.Separators
import Scripting.Proofs.Table
import Scripting.Session
import Scripting.Sample

namespace Scripting

variable {path p : List String} {own : Table Value} {name : String} {r : DictRef}
  {env : Environment} {w : World}

/-! ### The parts of a name -/

/-- The parts of a module's name. -/
abbrev modulePath (name : String) : List String := Text.pieces name "."

theorem modulePath_leftmost (name : String) :
    Text.Leftmost ".".toList name.toList ((modulePath name).map String.toList) :=
  Text.pieces_leftmost (by decide)

theorem modulePath_ne_nil (name : String) : modulePath name ≠ [] := by
  simpa using (modulePath_leftmost name).ne_nil

/-- No two names have the same parts. -/
theorem modulePath_injective {name' : String} (h : modulePath name = modulePath name') :
    name = name' := by
  rw [← String.toList_inj, ← (modulePath_leftmost name).intercalate_eq, h,
    (modulePath_leftmost name').intercalate_eq]

/-! ### Forests of packages -/

/-- What each package holds of its own, by its path. -/
abbrev Forest := List String → Option (Table Value)

namespace Forest

/-- A forest with a package put at a path. -/
def plant (T : Forest) (path : List String) (own : Table Value) : Forest := fun p =>
  if p = path then some own else T p

/-- A forest with an empty package put at a path, if there is none. -/
def opened (T : Forest) (path : List String) : Forest := T.plant path ((T path).getD .empty)

/-- What an import adds: the members of a library at a path, and empty packages above. -/
def shoot (path : List String) (own : Table Value) : Forest := fun p =>
  if p = path then some own else if p ≠ [] ∧ p <+: path then some .empty else none

/-- A forest after an import. What is there stays. -/
def graft (T : Forest) (path : List String) (own : Table Value) : Forest := fun p =>
  (T p).or (shoot path own p)

/-- Every package but a root lies in a package. -/
structure Closed (T : Forest) : Prop where
  nil : T [] = none
  below : ∀ {path : List String} {part : String}, path ≠ [] → T path = none →
    T (path ++ [part]) = none

variable {T : Forest} {part : String}

theorem plant_self : T.plant path own path = some own := if_pos rfl

theorem plant_of_ne (h : p ≠ path) : T.plant path own p = T p := if_neg h

theorem Closed.append (hT : T.Closed) : ∀ {path : List String} (more : List String), path ≠ [] →
    T path = none → T (path ++ more) = none
  | _, [], _, h => by rwa [List.append_nil]
  | path, part :: more, hpath, h => by
    rw [List.append_cons]
    exact hT.append more (by simp) (hT.below hpath h)

theorem Closed.ne_none_above (hT : T.Closed) (h : T path ≠ none) (hp : p <+: path) (hne : p ≠ []) :
    T p ≠ none := by
  obtain ⟨more, rfl⟩ := hp
  exact fun hnone => h (hT.append more hne hnone)

theorem Closed.plant (hT : T.Closed) (habove : path ≠ [] → T path ≠ none) :
    (T.plant (path ++ [part]) own).Closed where
  nil := by rw [plant_of_ne (by simp)]; exact hT.nil
  below {p x} hp hnone := by
    have hne : p ≠ path ++ [part] := fun h => by rw [h, plant_self] at hnone; cases hnone
    rw [plant_of_ne hne] at hnone
    rw [plant_of_ne fun h => ?_]
    · exact hT.below hp hnone
    · obtain ⟨rfl, -⟩ := List.append_inj' h rfl
      exact habove hp hnone

theorem graft_of_ne_none (hT : T.Closed) (h : T path ≠ none) : T.graft path own = T := by
  funext p
  unfold graft
  cases hp : T p with
  | some t => rfl
  | none =>
    have hne : p ≠ path := fun heq => h (heq ▸ hp)
    have habove : ¬(p ≠ [] ∧ p <+: path) := fun hpre => hT.ne_none_above h hpre.2 hpre.1 hp
    rw [Option.none_or, shoot, if_neg hne, if_neg habove]

theorem graft_of_none (hT : T.Closed) (habove : path ≠ [] → T path ≠ none)
    (h : T (path ++ [part]) = none) :
    T.graft (path ++ [part]) own = T.plant (path ++ [part]) own := by
  funext p
  by_cases hp : p = path ++ [part]
  · rw [hp, plant_self, graft, h, Option.none_or, shoot, if_pos rfl]
  rw [plant_of_ne hp, graft]
  cases hnone : T p with
  | some t => rfl
  | none =>
    have hpre : ¬(p ≠ [] ∧ p <+: path ++ [part]) := by
      rintro ⟨hne, hpre⟩
      have hpath : p <+: path := (List.prefix_concat_iff.1 hpre).resolve_left hp
      have hpath' : path ≠ [] := fun hnil => hne (List.prefix_nil.1 (hnil ▸ hpath))
      exact hT.ne_none_above (habove hpath') hpath hne hnone
    rw [Option.none_or, shoot, if_neg hp, if_neg hpre]

theorem opened_ne_none : T.opened path path ≠ none := by
  rw [opened, plant_self]
  exact Option.some_ne_none _

theorem opened_of_some (h : T path = some own) : T.opened path = T := by
  funext p
  by_cases hp : p = path
  · rw [hp, opened, plant_self, h]
    rfl
  · rw [opened, plant_of_ne hp]

theorem opened_of_none (h : T path = none) : T.opened path = T.plant path .empty := by
  rw [opened, h]
  rfl

/-- An import opens the packages that it passes through. -/
theorem graft_opened {more : List String} (hpath : path ≠ []) (hmore : more ≠ []) :
    (T.opened path).graft (path ++ more) own = T.graft (path ++ more) own := by
  funext p
  by_cases hp : p = path
  · have hne : path ≠ path ++ more := fun heq => hmore (by simpa using heq)
    have hpre : path ≠ [] ∧ path <+: path ++ more := ⟨hpath, List.prefix_append _ _⟩
    rw [hp, graft, graft, opened, plant_self, Option.some_or, shoot, if_neg hne, if_pos hpre]
    cases T path <;> rfl
  · rw [graft, graft, opened, plant_of_ne hp]

/-- No package above a path holds something else under the next part of the path. -/
def Admits (T : Forest) (path : List String) : Prop :=
  ∀ {front : List String} {part : String} {back : List String} {own : Table Value},
    path = front ++ part :: back → T front = some own → own.get? part = none

theorem Admits.opened (h : T.Admits p) : (T.opened path).Admits p := by
  intro front part back own hp hown
  by_cases hfront : front = path
  · rw [hfront, Forest.opened, plant_self] at hown
    cases hT : T path with
    | none =>
      rw [hT] at hown
      cases hown
      rfl
    | some own' =>
      rw [hT] at hown
      cases hown
      exact h hp (hfront ▸ hT)
  · rw [Forest.opened, plant_of_ne hfront] at hown
    exact h hp hown

end Forest

/-! ### Forests on the heap -/

theorem Heap.dict_newDict (h : Heap) (t : Table Value) (r : DictRef) :
    (h.newDict t).2.dict r = if r = (h.newDict t).1 then t else h.dict r := by
  unfold Heap.dict Heap.newDict
  by_cases hr : r = ⟨h.dicts.size⟩
  · simp [hr, Array.getD_eq_getD_getElem?]
  · have hid : r.id ≠ h.dicts.size := fun hid => hr (congrArg DictRef.mk hid)
    simp [hr, Array.getD_eq_getD_getElem?, Array.getElem?_push, hid]

theorem Heap.size_newDict (h : Heap) (t : Table Value) :
    (h.newDict t).2.dicts.size = h.dicts.size + 1 := Array.size_push _

theorem Heap.dict_modifyDict {h : Heap} (hr : r.id < h.dicts.size) (f : Table Value → Table Value)
    (r' : DictRef) : (h.modifyDict r f).dict r' = if r' = r then f (h.dict r) else h.dict r' := by
  unfold Heap.dict Heap.modifyDict
  by_cases hsame : r' = r
  · subst hsame
    simp only [Array.getD_eq_getD_getElem?, Array.getElem?_modify, if_pos, hr,
      Array.getElem?_eq_getElem, Option.map_some, Option.getD_some]
  · have hid : r.id ≠ r'.id := fun hid => hsame (congrArg DictRef.mk hid.symm)
    simp [Array.getD_eq_getD_getElem?, Array.getElem?_modify, hsame, hid]

/-- A world in which the imported modules are a forest, with a dict for each package. -/
structure Grown (T : Forest) (refs : List String → DictRef) (w : World) : Prop where
  closed : T.Closed
  modules : ∀ part, w.modules.get? part = (T [part]).map fun _ => .dict (refs [part])
  entries : ∀ {path : List String} {own : Table Value}, T path = some own → ∀ part,
    (w.heap.dict (refs path)).get? part =
      ((T (path ++ [part])).map fun _ => .dict (refs (path ++ [part]))).or (own.get? part)
  valid : ∀ {path : List String}, T path ≠ none → (refs path).id < w.heap.dicts.size
  injective : ∀ {path path' : List String}, T path ≠ none → T path' ≠ none →
    refs path = refs path' → path = path'

/-- The world with a new dict for a root. -/
def World.plantRoot (w : World) (part : String) (own : Table Value) : World :=
  { w with
    heap := (w.heap.newDict own).2
    modules := w.modules.insert part (.dict (w.heap.newDict own).1) }

/-- The world with a new dict as an entry of another. -/
def World.plantEntry (w : World) (r : DictRef) (part : String) (own : Table Value) : World :=
  { w with heap := (w.heap.newDict own).2.modifyDict r fun entries =>
      entries.insert part (.dict (w.heap.newDict own).1) }

/-- The dicts of a forest with one more. -/
def refsWith (refs : List String → DictRef) (path : List String) (r : DictRef) :
    List String → DictRef := fun p => if p = path then r else refs p

namespace Grown

variable {T : Forest} {refs : List String → DictRef} {part : String}

theorem refsWith_self : refsWith refs path r path = r :=
  if_pos rfl

theorem refsWith_of_ne (h : p ≠ path) : refsWith refs path r p = refs p := if_neg h

theorem ref_ne_new (g : Grown T refs w) (h : T path ≠ none) (own : Table Value) :
    refs path ≠ (w.heap.newDict own).1 := by
  intro heq
  have hvalid := g.valid h
  rw [heq] at hvalid
  exact Nat.lt_irrefl _ hvalid

theorem plant_valid (g : Grown T refs w) (hp : T.plant path own p ≠ none) :
    (refsWith refs path (w.heap.newDict own).1 p).id < (w.heap.newDict own).2.dicts.size := by
  rw [Heap.size_newDict]
  by_cases h : p = path
  · rw [h, refsWith_self]
    exact Nat.lt_succ_self _
  · rw [Forest.plant_of_ne h] at hp
    rw [refsWith_of_ne h]
    exact Nat.lt_succ_of_lt (g.valid hp)

theorem plant_injective (g : Grown T refs w) {path p p' : List String} {own : Table Value}
    (hp : T.plant path own p ≠ none) (hp' : T.plant path own p' ≠ none)
    (heq : refsWith refs path (w.heap.newDict own).1 p =
      refsWith refs path (w.heap.newDict own).1 p') : p = p' := by
  by_cases h : p = path <;> by_cases h' : p' = path
  · rw [h, h']
  · rw [Forest.plant_of_ne h'] at hp'
    rw [h, refsWith_self, refsWith_of_ne h'] at heq
    exact absurd heq.symm (g.ref_ne_new hp' own)
  · rw [Forest.plant_of_ne h] at hp
    rw [h', refsWith_self, refsWith_of_ne h] at heq
    exact absurd heq (g.ref_ne_new hp own)
  rw [Forest.plant_of_ne h] at hp
  rw [Forest.plant_of_ne h'] at hp'
  rw [refsWith_of_ne h, refsWith_of_ne h'] at heq
  exact g.injective hp hp' heq

/-- What is below a path does not change when something is planted elsewhere. -/
theorem plant_below {x : String} (h : p ++ [x] ≠ path) :
    ((T.plant path own (p ++ [x])).map fun _ => Value.dict (refsWith refs path r (p ++ [x]))) =
      (T (p ++ [x])).map fun _ => Value.dict (refs (p ++ [x])) := by
  rw [Forest.plant_of_ne h, refsWith_of_ne h]

theorem below_new (g : Grown T refs w) (h : T path = none) (hne : path ≠ []) (x : String) :
    ((T.plant path own (path ++ [x])).map fun _ =>
      Value.dict (refsWith refs path r (path ++ [x]))) = none := by
  rw [plant_below (by simp), g.closed.below hne h]
  rfl

theorem plantRoot (g : Grown T refs w) (h : T [part] = none) (own : Table Value) :
    Grown (T.plant [part] own) (refsWith refs [part] (w.heap.newDict own).1)
      (w.plantRoot part own) where
  closed := show (T.plant ([] ++ [part]) own).Closed from g.closed.plant fun hne => absurd rfl hne
  modules x := by
    change (w.modules.insert part (.dict (w.heap.newDict own).1)).get? x = _
    rw [Table.get?_insert]
    by_cases hx : x = part
    · rw [hx, if_pos rfl, Forest.plant_self, refsWith_self]
      rfl
    · have hne : [x] ≠ [part] := fun heq => hx (List.cons.inj heq).1
      rw [if_neg hx, Forest.plant_of_ne hne, refsWith_of_ne hne, g.modules]
  entries {p own'} hp x := by
    change ((w.heap.newDict own).2.dict _).get? x = _
    rw [Heap.dict_newDict]
    by_cases hpath : p = [part]
    · subst hpath
      rw [Forest.plant_self] at hp
      cases hp
      rw [refsWith_self, if_pos rfl, g.below_new h (List.cons_ne_nil _ _), Option.none_or]
    rw [Forest.plant_of_ne hpath] at hp
    have hp' : T p ≠ none := by rw [hp]; exact Option.some_ne_none _
    have hbelow : p ++ [x] ≠ [part] := by
      intro heq
      have hnil : p = [] := (List.append_inj' (heq.trans (List.nil_append _).symm) rfl).1
      exact hp' (hnil ▸ g.closed.nil)
    rw [refsWith_of_ne hpath, if_neg (g.ref_ne_new hp' own), plant_below hbelow, g.entries hp]
  valid := g.plant_valid
  injective := g.plant_injective

theorem plantEntry (g : Grown T refs w) (hpath : T path ≠ none) (h : T (path ++ [part]) = none)
    (own : Table Value) :
    Grown (T.plant (path ++ [part]) own) (refsWith refs (path ++ [part]) (w.heap.newDict own).1)
      (w.plantEntry (refs path) part own) where
  closed := g.closed.plant fun _ => hpath
  modules x := by
    have hne : [x] ≠ path ++ [part] := by
      intro heq
      have hnil : [] = path := (List.append_inj' ((List.nil_append _).trans heq) rfl).1
      exact hpath (hnil ▸ g.closed.nil)
    rw [Forest.plant_of_ne hne, refsWith_of_ne hne]
    exact g.modules x
  entries {p own'} hp x := by
    have hvalid : (refs path).id < (w.heap.newDict own).2.dicts.size := by
      rw [Heap.size_newDict]
      exact Nat.lt_succ_of_lt (g.valid hpath)
    change (((w.heap.newDict own).2.modifyDict (refs path) _).dict _).get? x = _
    rw [Heap.dict_modifyDict hvalid, Heap.dict_newDict, Heap.dict_newDict,
      if_neg (g.ref_ne_new hpath own)]
    by_cases hnew : p = path ++ [part]
    · subst hnew
      rw [Forest.plant_self] at hp
      cases hp
      rw [refsWith_self, if_neg (g.ref_ne_new hpath own).symm, if_pos rfl,
        g.below_new h (by simp), Option.none_or]
    rw [Forest.plant_of_ne hnew] at hp
    have hp' : T p ≠ none := by rw [hp]; exact Option.some_ne_none _
    rw [refsWith_of_ne hnew, if_neg (g.ref_ne_new hp' own)]
    by_cases hsame : p = path
    · subst hsame
      rw [if_pos rfl, Table.get?_insert]
      by_cases hx : x = part
      · rw [hx, if_pos rfl, Forest.plant_self, refsWith_self]
        rfl
      · rw [if_neg hx, plant_below (by simpa using hx), g.entries hp]
    · have hbelow : p ++ [x] ≠ path ++ [part] := fun heq => hsame (List.append_inj' heq rfl).1
      rw [if_neg fun heq => hsame (g.injective hp' hpath heq), plant_below hbelow, g.entries hp]
  valid hp := by
    have hnew := g.plant_valid hp
    rwa [← Array.size_modify] at hnew
  injective := g.plant_injective

theorem openRoot (g : Grown T refs w) (part : String) : ∃ refs' w',
    packageOf part (w.modules.get? part) (bindModule part) w = .ok (refs' [part]) w' ∧
      Grown (T.opened [part]) refs' w' := by
  cases h : T [part] with
  | some own =>
    rw [g.modules, h, Forest.opened_of_some h]
    exact ⟨refs, w, rfl, g⟩
  | none =>
    rw [g.modules, h, Forest.opened_of_none h]
    refine ⟨_, w.plantRoot part .empty, ?_, g.plantRoot h .empty⟩
    rw [refsWith_self]
    rfl

theorem openEntry (g : Grown T refs w) (hpath : T path = some own) (hpart : own.get? part = none) :
    ∃ refs' w',
    packageOf part ((w.heap.dict (refs path)).get? part) (bindEntry (refs path) part) w =
      .ok (refs' (path ++ [part])) w' ∧ Grown (T.opened (path ++ [part])) refs' w' := by
  rw [g.entries hpath, hpart, Option.or_none]
  cases h : T (path ++ [part]) with
  | some own' =>
    rw [Forest.opened_of_some h]
    exact ⟨refs, w, rfl, g⟩
  | none =>
    rw [Forest.opened_of_none h]
    have hne : T path ≠ none := by rw [hpath]; exact Option.some_ne_none _
    refine ⟨_, w.plantEntry (refs path) part .empty, ?_, g.plantEntry hne h .empty⟩
    rw [refsWith_self]
    rfl

end Grown

/-! ### Imports -/

theorem importInto_grows (library : Library) : ∀ (rest path : List String)
    {T : Forest} {refs : List String → DictRef} {w : World}, rest ≠ [] → Grown T refs w →
    T path ≠ none → T.Admits (path ++ rest) →
    ∃ refs' w', importInto (refs path) library rest w = .ok () w' ∧
      Grown (T.graft (path ++ rest) library.members) refs' w'
  | [], _, _, _, _, h, _, _, _ => absurd rfl h
  | [leaf], path, T, refs, w, _, g, hpath, hadmits => by
    obtain ⟨own, hown⟩ := Option.ne_none_iff_exists'.1 hpath
    have hknown : (w.heap.dict (refs path)).contains leaf = (T (path ++ [leaf])).isSome := by
      rw [Table.contains_eq_isSome, g.entries hown, hadmits rfl hown, Option.or_none,
        Option.isSome_map]
    cases h : T (path ++ [leaf]) with
    | some own' =>
      have hne : T (path ++ [leaf]) ≠ none := by rw [h]; exact Option.some_ne_none _
      rw [Forest.graft_of_ne_none g.closed hne]
      refine ⟨refs, w, ?_, g⟩
      rw [importInto]
      dsimp only [bind, Run.bind, Run.view]
      rw [hknown, h]
      rfl
    | none =>
      rw [Forest.graft_of_none g.closed (fun _ => hpath) h]
      refine ⟨_, w.plantEntry (refs path) leaf library.members, ?_, g.plantEntry hpath h _⟩
      rw [importInto]
      dsimp only [bind, Run.bind, Run.view]
      rw [hknown, h]
      rfl
  | part :: next :: rest, path, T, refs, w, _, g, hpath, hadmits => by
    obtain ⟨own, hown⟩ := Option.ne_none_iff_exists'.1 hpath
    obtain ⟨refs₁, w₁, hopen, g₁⟩ := g.openEntry hown (hadmits rfl hown)
    rw [List.append_cons] at hadmits
    obtain ⟨refs₂, w₂, himport, g₂⟩ := importInto_grows library (next :: rest) (path ++ [part])
      (List.cons_ne_nil _ _) g₁ Forest.opened_ne_none hadmits.opened
    rw [Forest.graft_opened (by simp) (List.cons_ne_nil _ _), ← List.append_cons] at g₂
    refine ⟨refs₂, w₂, ?_, g₂⟩
    rw [importInto.eq_3 _ _ _ _ (List.cons_ne_nil _ _)]
    dsimp only [bind, Run.bind, Run.view]
    rw [hopen]
    exact himport

/-- An import succeeds and adds to the forest what is missing. -/
theorem importModule_grows {library : Library} (hlibrary : env.libraries.get? name = some library)
    {T : Forest} {refs : List String → DictRef} (g : Grown T refs w)
    (hadmits : T.Admits (modulePath name)) :
    ∃ refs' w', importModule env name w = .ok () w' ∧
      Grown (T.graft (modulePath name) library.members) refs' w' := by
  obtain ⟨head, rest, hname⟩ : ∃ head rest, Text.pieces name "." = head :: rest :=
    List.exists_cons_of_ne_nil (modulePath_ne_nil name)
  unfold importModule modulePath at *
  rw [hlibrary]
  dsimp only
  rw [hname] at hadmits ⊢
  cases rest with
  | nil =>
    have hknown : w.modules.contains head = (T [head]).isSome := by
      rw [Table.contains_eq_isSome, g.modules, Option.isSome_map]
    cases hT : T [head] with
    | some own =>
      have hne : T [head] ≠ none := by rw [hT]; exact Option.some_ne_none _
      rw [Forest.graft_of_ne_none g.closed hne]
      refine ⟨refs, w, ?_, g⟩
      dsimp only [bind, Run.bind, Run.view]
      rw [hknown, hT]
      rfl
    | none =>
      have hgraft : T.graft [head] library.members = T.plant [head] library.members :=
        show T.graft ([] ++ [head]) _ = _ from
          Forest.graft_of_none g.closed (fun hne => absurd rfl hne) hT
      rw [hgraft]
      refine ⟨_, w.plantRoot head library.members, ?_, g.plantRoot hT _⟩
      dsimp only [bind, Run.bind, Run.view]
      rw [hknown, hT]
      rfl
  | cons next rest =>
    obtain ⟨refs₁, w₁, hopen, g₁⟩ := g.openRoot head
    obtain ⟨refs₂, w₂, himport, g₂⟩ := importInto_grows library (next :: rest) [head]
      (List.cons_ne_nil _ _) g₁ Forest.opened_ne_none hadmits.opened
    rw [Forest.graft_opened (List.cons_ne_nil _ _) (List.cons_ne_nil _ _)] at g₂
    refine ⟨refs₂, w₂, ?_, g₂⟩
    dsimp only [bind, Run.bind, Run.view]
    rw [hopen]
    exact himport

/-! ### Sequences of imports -/

def Environment.membersOf (env : Environment) (name : String) : Table Value :=
  ((env.libraries.get? name).map Library.members).getD .empty

/-- No library has a member where another library, below it, has its package. -/
def Environment.Clear (env : Environment) : Prop :=
  ∀ above ∈ env.libraries.entries, ∀ part ∈ above.2.members.keys, ∀ below ∈ env.libraries.entries,
    ¬ modulePath above.1 ++ [part] <+: modulePath below.1

instance (env : Environment) : Decidable env.Clear :=
  inferInstanceAs (Decidable (∀ above ∈ env.libraries.entries, ∀ part ∈ above.2.members.keys,
    ∀ below ∈ env.libraries.entries, ¬ modulePath above.1 ++ [part] <+: modulePath below.1))

def Environment.forest (env : Environment) (names : List String) : Forest := fun p =>
  names.findSome? fun name => Forest.shoot (modulePath name) (env.membersOf name) p

namespace Environment

variable {names : List String}

/-- The libraries that some names mean. -/
def Registers (env : Environment) (names : List String) : Prop :=
  ∀ name ∈ names, (env.libraries.get? name).isSome = true

theorem forest_snoc (env : Environment) (names : List String) (name : String) :
    env.forest (names ++ [name]) =
      (env.forest names).graft (modulePath name) (env.membersOf name) := by
  funext p
  rw [forest, List.findSome?_append, Forest.graft, forest]
  simp

theorem Clear.get?_eq_none (hclear : env.Clear) {name' : String} {part : String}
    (hname' : (env.libraries.get? name').isSome = true)
    (hpath : modulePath name ++ [part] <+: modulePath name') :
    (env.membersOf name).get? part = none := by
  unfold membersOf
  cases hname : env.libraries.get? name with
  | none => rfl
  | some library =>
    obtain ⟨library', hlibrary'⟩ := Option.isSome_iff_exists.1 hname'
    cases hpart : library.members.get? part with
    | none => exact hpart
    | some v =>
      have hmember : part ∈ library.members.keys :=
        List.mem_map_of_mem (Table.mem_of_find hpart)
      exact absurd hpath (hclear _ (Table.mem_of_find hname) part hmember _
        (Table.mem_of_find hlibrary'))

theorem Clear.admits (hclear : env.Clear) (hname : (env.libraries.get? name).isSome = true) :
    (env.forest names).Admits (modulePath name) := by
  intro front part back own hpath hown
  obtain ⟨name', -, hshoot⟩ := List.exists_of_findSome?_eq_some hown
  unfold Forest.shoot at hshoot
  split at hshoot
  next hfront =>
    cases hshoot
    refine hclear.get?_eq_none hname ?_
    rw [hpath, ← hfront]
    exact ⟨back, (List.append_cons front part back).symm⟩
  · split at hshoot
    · cases hshoot
      rfl
    · cases hshoot

end Environment

theorem grown_of_no_modules (h : w.modules = .empty) (refs : List String → DictRef) :
    Grown (env.forest []) refs w where
  closed := ⟨rfl, fun _ _ => rfl⟩
  modules part := by rw [h]; rfl
  entries h := by cases h
  valid h := absurd rfl h
  injective h := absurd rfl h

namespace Session

/-- Some imports in turn. The induction is on the imports to come. -/
theorem importAll_grows (hclear : env.Clear) : ∀ (names before : List String)
    {s : Session} {refs : List String → DictRef}, s.env = env → env.Registers names →
    Grown (env.forest before) refs s.world →
    ∃ s' refs', s.importAll names = .ok s' ∧ Grown (env.forest (before ++ names)) refs' s'.world
  | [], before, s, refs, _, _, g => by
    rw [List.append_nil]
    exact ⟨s, refs, rfl, g⟩
  | name :: rest, before, s, refs, henv, hnames, g => by
    have hname := hnames name (.head _)
    obtain ⟨library, hlibrary⟩ := Option.isSome_iff_exists.1 hname
    have hmembers : env.membersOf name = library.members := by
      rw [Environment.membersOf, hlibrary]
      rfl
    -- A session starts with a token, a depth and no faults of its own, which packages do not see.
    have gstart : Grown (env.forest before) refs
        { s.world with token := .live, depth := 0, handling := [] } :=
      ⟨g.closed, g.modules, g.entries, g.valid, g.injective⟩
    obtain ⟨refs₁, w₁, himport, g₁⟩ := importModule_grows hlibrary gstart (hclear.admits hname)
    rw [← hmembers, ← Environment.forest_snoc] at g₁
    obtain ⟨s', refs', hrest, g'⟩ := importAll_grows hclear rest (before ++ [name])
      (s := { s with world := w₁ }) henv (fun n hn => hnames n (.tail _ hn)) g₁
    rw [← List.append_cons] at g'
    refine ⟨s', refs', ?_, g'⟩
    subst henv
    rw [importAll, importLibrary, run, himport]
    exact hrest

/-- The value at a path in the imported modules. -/
def reach? (s : Session) : List String → Option Value
  | [] => none
  | head :: rest => (s.world.modules.get? head).bind fun v => walk s.world.heap v rest

theorem walk_cons (h : Heap) (r : DictRef) (part : String) (rest : List String) :
    walk h (.dict r) (part :: rest) = ((h.dict r).get? part).bind fun v => walk h v rest := by
  rw [walk.eq_def]

end Session

namespace Grown

variable {T : Forest} {refs : List String → DictRef}

theorem walk_package (g : Grown T refs w) (name : String) : ∀ (rest path : List String)
    {own : Table Value}, path ≠ [] → T (path ++ rest) = some own →
    Session.walk w.heap (.dict (refs path)) (rest ++ [name]) =
      ((T (path ++ rest ++ [name])).map fun _ => .dict (refs (path ++ rest ++ [name]))).or
        (own.get? name)
  | [], path, own, _, hown => by
    rw [List.append_nil] at hown ⊢
    rw [List.nil_append, Session.walk_cons, g.entries hown]
    exact Option.bind_fun_some _
  | part :: rest, path, own, hpath, hown => by
    rw [List.append_cons path part rest] at hown ⊢
    have hwhole : T (path ++ [part] ++ rest) ≠ none := by rw [hown]; exact Option.some_ne_none _
    obtain ⟨own', hown'⟩ := Option.ne_none_iff_exists'.1
      (g.closed.ne_none_above hwhole ⟨[part] ++ rest, by simp⟩ hpath)
    obtain ⟨own'', hown''⟩ := Option.ne_none_iff_exists'.1
      (g.closed.ne_none_above hwhole (List.prefix_append _ _) (by simp))
    rw [List.cons_append, Session.walk_cons, g.entries hown', hown'', Option.map_some,
      Option.some_or, Option.bind_some]
    exact walk_package g name rest (path ++ [part]) (by simp) hown

theorem reach?_package {s : Session} (g : Grown T refs s.world) (hown : T path = some own)
    (name : String) :
    s.reach? (path ++ [name]) =
      ((T (path ++ [name])).map fun _ => .dict (refs (path ++ [name]))).or (own.get? name) := by
  cases path with
  | nil =>
    rw [g.closed.nil] at hown
    cases hown
  | cons head rest =>
    have hwhole : T (head :: rest) ≠ none := by rw [hown]; exact Option.some_ne_none _
    obtain ⟨own', hown'⟩ := Option.ne_none_iff_exists'.1
      (g.closed.ne_none_above (p := [head]) hwhole ⟨rest, rfl⟩ (List.cons_ne_nil _ _))
    rw [List.cons_append, Session.reach?, g.modules, hown', Option.map_some, Option.bind_some]
    exact g.walk_package name rest [head] (List.cons_ne_nil _ _) hown

end Grown

/-- The first of some names that leads to a package or through it. -/
def firstThrough (names : List String) (path : List String) : Option String :=
  names.find? fun name => path.isPrefixOf (modulePath name)

theorem firstThrough_eq_some {names : List String} (h : firstThrough names path = some name) :
    name ∈ names ∧ path <+: modulePath name := by
  unfold firstThrough at h
  exact ⟨List.mem_of_find?_eq_some h,
    List.isPrefixOf_iff_prefix.1 (by simpa using List.find?_some h)⟩

theorem Forest.shoot_eq (hp : p ≠ []) :
    shoot path own p =
      if p.isPrefixOf path then some (if p = path then own else .empty) else none := by
  unfold shoot
  by_cases hsame : p = path
  · subst hsame
    have hpre : p.isPrefixOf p = true := List.isPrefixOf_iff_prefix.2 List.prefix_rfl
    rw [if_pos rfl, if_pos hpre, if_pos rfl]
  by_cases hpre : p <+: path
  · rw [if_neg hsame, if_pos ⟨hp, hpre⟩, if_pos (List.isPrefixOf_iff_prefix.2 hpre), if_neg hsame]
  · have hpre' : ¬ p.isPrefixOf path = true := fun h => hpre (List.isPrefixOf_iff_prefix.1 h)
    rw [if_neg hsame, if_neg fun h => hpre h.2, if_neg hpre']

/-- What a package holds of its own is settled by the first name that leads to it or
through it. -/
theorem Environment.forest_eq (env : Environment) (hp : p ≠ []) :
    ∀ names : List String, env.forest names p = (firstThrough names p).map fun name =>
      if p = modulePath name then env.membersOf name else .empty
  | [] => rfl
  | name :: rest => by
    have ih := forest_eq env hp rest
    unfold forest firstThrough at *
    rw [List.findSome?_cons, List.find?_cons, Forest.shoot_eq hp]
    by_cases hpre : p.isPrefixOf (modulePath name) = true
    · rw [if_pos hpre, hpre]
      rfl
    · rw [if_neg hpre, ih]
      simp [hpre]

/-- Imports of libraries that keep clear of each other succeed. Afterwards the members of a
library are reachable if it was imported before every library below it, and otherwise none
of them is. -/
theorem importAll_reaches (s : Session) (hfresh : s.world.modules = .empty) (hclear : s.env.Clear)
    (names : List String) (hnames : s.env.Registers names) :
    ∃ s', s.importAll names = .ok s' ∧
      ∀ name ∈ names, ∀ library, s.env.libraries.get? name = some library →
        ∀ m v, library.members.get? m = some v → s'.reach? (modulePath name ++ [m]) =
          if firstThrough names (modulePath name) = some name then some v else none := by
  obtain ⟨s', refs, himport, g⟩ := Session.importAll_grows hclear names [] rfl hnames
    (grown_of_no_modules hfresh fun _ => ⟨0⟩)
  refine ⟨s', himport, fun name hname library hlibrary m v hm => ?_⟩
  have hmembers : s.env.membersOf name = library.members := by
    rw [Environment.membersOf, hlibrary]
    rfl
  have hpath := modulePath_ne_nil name
  -- The name itself leads to the package, so some name is the first to do so.
  obtain ⟨first, hfirst⟩ : ∃ first, firstThrough names (modulePath name) = some first := by
    refine Option.isSome_iff_exists.1 (List.find?_isSome.2 ⟨name, hname, ?_⟩)
    exact List.isPrefixOf_iff_prefix.2 List.prefix_rfl
  have hown := s.env.forest_eq hpath names
  rw [hfirst, Option.map_some] at hown
  -- What a member is called, no package below is called.
  have hnone : s.env.forest names (modulePath name ++ [m]) = none := by
    rw [s.env.forest_eq (by simp) names]
    cases hbelow : firstThrough names (modulePath name ++ [m]) with
    | none => rfl
    | some below =>
      obtain ⟨hmem, hpre⟩ := firstThrough_eq_some hbelow
      have hclash := hclear.get?_eq_none (hnames below hmem) hpre
      rw [hmembers, hm] at hclash
      cases hclash
  rw [g.reach?_package hown, List.nil_append, hnone, Option.map_none, Option.none_or]
  by_cases hself : first = name
  · subst hself
    rw [if_pos rfl, if_pos hfirst, hmembers, hm]
  have hother : modulePath name ≠ modulePath first := fun h => hself (modulePath_injective h.symm)
  have hlater : firstThrough names (modulePath name) ≠ some name := by
    rw [hfirst]
    exact fun h => hself (Option.some.inj h)
  rw [if_neg hother, if_neg hlater]
  rfl

/-- A session with a library and one below it. -/
def Sample.nestedLibraries : Session :=
  ((Session.build Sample.body {}).registerLibrary ⟨"a", .ofList [("m", .int 1)]⟩).registerLibrary
    ⟨"a.b", .ofList [("n", .int 2)]⟩

/-- Imported from the top, both libraries are reachable. -/
theorem importAll_reaches_nested :
    let s := Sample.nestedLibraries
    s.world.modules = .empty ∧ s.env.Clear ∧ s.env.Registers ["a", "a.b", "a"] ∧
      ∃ s', s.importAll ["a", "a.b", "a"] = .ok s' ∧ s'.reach? ["a", "m"] = some (.int 1) ∧
        s'.reach? ["a", "b", "n"] = some (.int 2) := by
  intro s
  have hclear : s.env.Clear := by decide +kernel
  have hnames : s.env.Registers ["a", "a.b", "a"] := by
    unfold Environment.Registers
    decide +kernel
  refine ⟨rfl, hclear, hnames, ?_⟩
  obtain ⟨s', himport, hreach⟩ := importAll_reaches s rfl hclear ["a", "a.b", "a"] hnames
  refine ⟨s', himport, ?_, ?_⟩
  · exact hreach "a" (by decide) _ rfl "m" _ rfl
  · exact hreach "a.b" (by decide) _ rfl "n" _ rfl

/-- Imported from below, the upper library is out of reach, although its import succeeds. -/
theorem import_below_first :
    let s := Sample.nestedLibraries
    s.env.Clear ∧ (s.env.membersOf "a").get? "m" = some (.int 1) ∧
      ∃ s', s.importAll ["a.b", "a"] = .ok s' ∧ s'.reach? ["a", "m"] = none := by
  intro s
  have hclear : s.env.Clear := by decide +kernel
  have hout : (s.importAll ["a.b", "a"]).toOption.any (fun s' => (s'.reach? ["a", "m"]).isNone) =
      true := by decide +kernel
  refine ⟨hclear, rfl, ?_⟩
  cases himport : s.importAll ["a.b", "a"] with
  | ok s' =>
    rw [himport] at hout
    exact ⟨s', rfl, Option.isNone_iff_eq_none.1 hout⟩
  | error failure =>
    rw [himport] at hout
    cases hout

end Scripting
