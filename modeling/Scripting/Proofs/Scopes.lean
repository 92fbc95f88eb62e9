/-
# What an assignment changes

Scopes form a forest: a scope is made inside one that is there already or as a frame without
a parent, and where it hangs never changes (`Heap.Nested`). So a walk outwards gets to scopes
that are older and older, and it ends at a frame.

An assignment binds the name in one scope: the nearest one outwards that binds it already or,
if none does, the nearest frame (`Heap.AssignsIn`). Nothing else changes there, and nothing at
all in any other scope, whatever shape the forest has and whichever names hide others
(`Heap.Rebinds`). So a lookup of another name finds what it found before, from every scope.
-/
import Mathlib.Logic.ExistsUnique
import Mathlib.Logic.Relation
import Scripting.Proofs.Table
import Scripting.Scope

namespace Scripting

namespace Heap

variable {h : Heap}

/-! ### Forests of scopes -/

/-- What can be done to the scopes on a heap, one step at a time. Whatever else happens on the
heap leaves them alone. -/
inductive ScopeStep : Heap → Heap → Prop
  | newGlobal (h : Heap) : ScopeStep h h.newGlobal.2
  | newChild {h : Heap} {parent : ScopeRef} (hp : parent.id < h.scopes.size) :
      ScopeStep h (h.newChild parent).2
  | newFrame {h : Heap} {parent : ScopeRef} (hp : parent.id < h.scopes.size) :
      ScopeStep h (h.newFrame parent).2
  | define (h : Heap) (r : ScopeRef) (name : String) (v : Value) : ScopeStep h (h.define r name v)
  | assign (h : Heap) (r : ScopeRef) (name : String) (v : Value) : ScopeStep h (h.assign r name v)
  | defineInFrame (h : Heap) (r : ScopeRef) (name : String) (v : Value) :
      ScopeStep h (h.defineInFrame r name v)
  | clear (h : Heap) (r : ScopeRef) : ScopeStep h (h.clearScope r)
  | elsewhere {h h' : Heap} (hscopes : h'.scopes = h.scopes) : ScopeStep h h'

/-- The scopes on a heap came about step by step. -/
inductive Scoped : Heap → Prop
  | none {h : Heap} (hscopes : h.scopes = #[]) : Scoped h
  | step {h h' : Heap} (hh : h.Scoped) (hstep : ScopeStep h h') : Scoped h'

/-- Every scope is inside an older one, or it is a frame. -/
structure Nested (h : Heap) : Prop where
  older : ∀ {r parent : ScopeRef}, (h.scope r).parent = some parent → parent.id < r.id
  root : ∀ {r : ScopeRef}, (h.scope r).parent = none → (h.scope r).isFrame = true

theorem scope_congr {h' : Heap} (hscopes : h'.scopes = h.scopes) (r : ScopeRef) :
    h'.scope r = h.scope r := by
  rw [scope, scope, hscopes]

theorem scope_newScope (h : Heap) (s : Scope) (r : ScopeRef) :
    (h.newScope s).2.scope r = if r.id = h.scopes.size then s else h.scope r := by
  unfold Heap.scope newScope
  by_cases hr : r.id = h.scopes.size
  · simp [hr, Array.getD_eq_getD_getElem?]
  · simp [hr, Array.getD_eq_getD_getElem?, Array.getElem?_push]

theorem scope_modifyVars (h : Heap) (r : ScopeRef) (f : Table Value → Table Value) (t : ScopeRef) :
    (h.modifyVars r f).scope t =
      if t = r ∧ r.id < h.scopes.size then { h.scope t with vars := f (h.scope t).vars }
      else h.scope t := by
  unfold Heap.scope modifyVars
  by_cases ht : t = r
  · subst ht
    by_cases hlt : t.id < h.scopes.size <;>
      simp [Array.getD_eq_getD_getElem?, Array.getElem_modify, hlt]
  · have hid : r.id ≠ t.id := fun hid => ht (congrArg ScopeRef.mk hid.symm)
    simp [ht, Array.getD_eq_getD_getElem?, Array.getElem?_modify, hid]

theorem place_modifyVars (h : Heap) (r : ScopeRef) (f : Table Value → Table Value) (t : ScopeRef) :
    ((h.modifyVars r f).scope t).parent = (h.scope t).parent ∧
      ((h.modifyVars r f).scope t).isFrame = (h.scope t).isFrame := by
  rw [scope_modifyVars]
  split
  · exact ⟨rfl, rfl⟩
  · exact ⟨rfl, rfl⟩

namespace Nested

theorem modifyVars (hn : h.Nested) (r : ScopeRef) (f : Table Value → Table Value) :
    (h.modifyVars r f).Nested where
  older {t parent} hparent := hn.older ((h.place_modifyVars r f t).1 ▸ hparent)
  root {t} hroot := by
    rw [(h.place_modifyVars r f t).2]
    exact hn.root ((h.place_modifyVars r f t).1 ▸ hroot)

theorem define (hn : h.Nested) (r : ScopeRef) (name : String) (v : Value) :
    (h.define r name v).Nested := hn.modifyVars r _

theorem newScope (hn : h.Nested) {s : Scope}
    (holder : ∀ p, s.parent = some p → p.id < h.scopes.size)
    (hroot : s.parent = .none → s.isFrame = true) : (h.newScope s).2.Nested where
  older {r parent} hparent := by
    rw [scope_newScope] at hparent
    split at hparent
    next hr => exact hr ▸ holder parent hparent
    · exact hn.older hparent
  root {r} hnone := by
    rw [scope_newScope] at hnone ⊢
    split at hnone
    next hr => rw [if_pos hr]; exact hroot hnone
    next hr => rw [if_neg hr]; exact hn.root hnone

end Nested

/-- Every step keeps the forest a forest. -/
theorem ScopeStep.nested {h' : Heap} (hstep : ScopeStep h h') (hn : h.Nested) : h'.Nested := by
  cases hstep with
  | newGlobal => exact hn.newScope nofun fun _ => rfl
  | newChild hp => exact hn.newScope (fun p heq => Option.some.inj heq ▸ hp) nofun
  | newFrame hp => exact hn.newScope (fun p heq => Option.some.inj heq ▸ hp) nofun
  | define r name v => exact hn.define r name v
  | assign r name v =>
    unfold Heap.assign
    split
    · exact hn.define _ name v
    · exact hn.define _ name v
  | defineInFrame r name v => exact hn.define _ name v
  | clear r => exact hn.modifyVars r _
  | elsewhere hscopes =>
    refine ⟨fun {r parent} hparent => ?_, fun {r} hroot => ?_⟩
    · exact hn.older (scope_congr hscopes r ▸ hparent)
    · rw [scope_congr hscopes r] at hroot ⊢
      exact hn.root hroot

theorem Scoped.nested (hh : h.Scoped) : h.Nested := by
  induction hh with
  | @none h hscopes =>
    have hscope (r : ScopeRef) : h.scope r = default := by
      rw [Heap.scope, hscopes]
      rfl
    refine ⟨fun {r parent} hparent => ?_, fun {r} _ => ?_⟩
    · rw [hscope] at hparent
      cases hparent
    · rw [hscope]
      rfl
  | step _ hstep ih => exact hstep.nested ih

/-! ### Walking outwards -/

/-- One scope is another one or lies outside of it. -/
def Outward (h : Heap) : ScopeRef → ScopeRef → Prop :=
  Relation.ReflTransGen fun s t => (h.scope s).parent = some t

/-- The first scope with a property on the way outwards. -/
structure Nearest (h : Heap) (p : ScopeRef → Prop) (s r : ScopeRef) : Prop where
  outward : h.Outward s r
  holds : p r
  first : ∀ t, h.Outward s t → p t → h.Outward r t

theorem Nested.le_of_outward (hn : h.Nested) {s t : ScopeRef} (hst : h.Outward s t) :
    t.id ≤ s.id := by
  induction hst with
  | refl => exact Nat.le_refl _
  | tail _ hparent ih => exact Nat.le_trans (Nat.le_of_lt (hn.older hparent)) ih

theorem Nested.outward_antisymm (hn : h.Nested) {s t : ScopeRef} (hst : h.Outward s t)
    (hts : h.Outward t s) : s = t :=
  congrArg ScopeRef.mk (Nat.le_antisymm (hn.le_of_outward hts) (hn.le_of_outward hst))

theorem Nested.chainUpTo_eq (hn : h.Nested) : ∀ {b b' : Nat} {r : ScopeRef}, r.id ≤ b → r.id ≤ b' →
    h.chainUpTo b r = h.chainUpTo b' r
  | b, b', r, hb, hb' => by
    cases hparent : (h.scope r).parent with
    | none => cases b <;> cases b' <;> simp [chainUpTo, hparent]
    | some p =>
      have hp := hn.older hparent
      cases b with
      | zero => omega
      | succ b =>
        cases b' with
        | zero => omega
        | succ b' =>
          have ih : h.chainUpTo b p = h.chainUpTo b' p := hn.chainUpTo_eq (by omega) (by omega)
          simp only [chainUpTo, hparent, ih]

theorem exists_chain_eq_cons (h : Heap) (r : ScopeRef) : ∃ outer, h.chain r = r :: outer := by
  unfold chain
  cases r.id with
  | zero => exact ⟨[], rfl⟩
  | succ b => cases hparent : (h.scope r).parent <;> simp [chainUpTo, hparent]

theorem chain_of_root {r : ScopeRef} (hroot : (h.scope r).parent = none) : h.chain r = [r] := by
  unfold chain
  cases r.id <;> simp [chainUpTo, hroot]

theorem Nested.chain_of_parent (hn : h.Nested) {r p : ScopeRef}
    (hparent : (h.scope r).parent = some p) : h.chain r = r :: h.chain p := by
  have hp := hn.older hparent
  unfold chain
  cases hr : r.id with
  | zero => omega
  | succ b =>
    have hbound : h.chainUpTo b p = h.chainUpTo p.id p := hn.chainUpTo_eq (by omega) (Nat.le_refl _)
    simp only [chainUpTo, hparent, hbound]

theorem Nearest.here {p : ScopeRef → Prop} {s : ScopeRef} (hs : p s) : h.Nearest p s s :=
  ⟨.refl, hs, fun _ ht _ => ht⟩

theorem Nearest.beyond {p : ScopeRef → Prop} {s q r : ScopeRef} (hs : ¬ p s)
    (hparent : (h.scope s).parent = some q) (hr : h.Nearest p q r) : h.Nearest p s r where
  outward := .head hparent hr.outward
  holds := hr.holds
  first t hst ht := by
    rcases Relation.ReflTransGen.cases_head hst with rfl | ⟨q', hq', hqt⟩
    · exact absurd ht hs
    · obtain rfl : q = q' := Option.some.inj (hparent.symm.trans hq')
      exact hr.first t hqt ht

/-- A search on the way outwards finds the nearest. The induction is on the age of the scope. -/
theorem Nested.nearest_of_find? (hn : h.Nested) {p : ScopeRef → Bool} {s r : ScopeRef}
    (hfind : (h.chain s).find? p = some r) : h.Nearest (fun t => p t = true) s r := by
  by_cases hs : p s = true
  · obtain ⟨outer, hchain⟩ := h.exists_chain_eq_cons s
    rw [hchain, List.find?_cons_of_pos hs] at hfind
    exact Option.some.inj hfind ▸ .here hs
  cases hparent : (h.scope s).parent with
  | none => simp [chain_of_root hparent, hs] at hfind
  | some q =>
    have := hn.older hparent
    rw [hn.chain_of_parent hparent, List.find?_cons_of_neg hs] at hfind
    exact .beyond hs hparent (hn.nearest_of_find? hfind)
termination_by s.id

theorem Nested.mem_chain_of_outward (hn : h.Nested) {s t : ScopeRef} (hst : h.Outward s t) :
    t ∈ h.chain s := by
  induction hst using Relation.ReflTransGen.head_induction_on with
  | refl =>
    obtain ⟨outer, hchain⟩ := h.exists_chain_eq_cons t
    rw [hchain]
    exact .head _
  | head hparent _ ih =>
    rw [hn.chain_of_parent hparent]
    exact .tail _ ih

theorem Nested.exists_frame (hn : h.Nested) (s : ScopeRef) :
    ∃ r, (h.chain s).find? (fun t => (h.scope t).isFrame) = some r := by
  by_cases hs : (h.scope s).isFrame = true
  · obtain ⟨outer, hchain⟩ := h.exists_chain_eq_cons s
    exact ⟨s, by simp [hchain, hs]⟩
  cases hparent : (h.scope s).parent with
  | none => exact absurd (hn.root hparent) hs
  | some q =>
    have := hn.older hparent
    obtain ⟨r, hr⟩ := hn.exists_frame q
    exact ⟨r, by simp [hn.chain_of_parent hparent, hs, hr]⟩
termination_by s.id

/-! ### Binding a name in a scope -/

def Binds (h : Heap) (name : String) (r : ScopeRef) : Prop := (h.scope r).vars.contains name = true

instance (h : Heap) (name : String) (r : ScopeRef) : Decidable (h.Binds name r) :=
  inferInstanceAs (Decidable ((h.scope r).vars.contains name = true))

theorem binds_iff {name : String} {r : ScopeRef} :
    h.Binds name r ↔ name ∈ (h.scope r).vars.keys := by
  rw [Binds, Table.contains_eq_isSome, Table.isSome_get?_iff]

/-- Only one scope changed, and there only what one name stands for. -/
structure Rebinds (h h' : Heap) (r : ScopeRef) (name : String) (v : Value) : Prop where
  scopes : h'.scopes.size = h.scopes.size
  others : ∀ t, t ≠ r → h'.scope t = h.scope t
  parent : (h'.scope r).parent = (h.scope r).parent
  isFrame : (h'.scope r).isFrame = (h.scope r).isFrame
  bound : h'.local? r name = some v
  rest : (h'.scope r).vars.erase name = (h.scope r).vars.erase name
  order : (h'.scope r).vars.keys =
    if h.Binds name r then (h.scope r).vars.keys else (h.scope r).vars.keys ++ [name]
  data : h'.lists = h.lists ∧ h'.dicts = h.dicts ∧ h'.functions = h.functions

section Define

variable {r : ScopeRef} (hr : r.id < h.scopes.size) (name : String) (v : Value)
include hr

theorem scope_define : (h.define r name v).scope r =
    { h.scope r with vars := (h.scope r).vars.insert name v } := by
  rw [define, scope_modifyVars, if_pos ⟨rfl, hr⟩]

theorem rebinds_define : h.Rebinds (h.define r name v) r name v where
  scopes := Array.size_modify
  others t ht := by rw [define, scope_modifyVars, if_neg fun h => ht h.1]
  parent := (h.place_modifyVars r _ r).1
  isFrame := (h.place_modifyVars r _ r).2
  bound := by rw [local?, scope_define hr, Table.get?_insert, if_pos rfl]
  rest := by rw [scope_define hr, Table.erase_insert]
  order := by simp only [scope_define hr, Table.keys_insert, binds_iff]
  data := ⟨rfl, rfl, rfl⟩

end Define

namespace Rebinds

variable {h' : Heap} {r : ScopeRef} {name : String} {v : Value} (hr : h.Rebinds h' r name v)
include hr

theorem parent_eq (t : ScopeRef) : (h'.scope t).parent = (h.scope t).parent := by
  by_cases ht : t = r
  · rw [ht, hr.parent]
  · rw [hr.others t ht]

theorem chain_eq (t : ScopeRef) : h'.chain t = h.chain t := by
  suffices hbound : ∀ (b : Nat) (t : ScopeRef), h'.chainUpTo b t = h.chainUpTo b t from
    hbound t.id t
  intro b
  induction b with
  | zero => exact fun _ => rfl
  | succ b ih => intro t; simp only [chainUpTo, hr.parent_eq t, ih]

theorem local?_of_ne (t : ScopeRef) {m : String} (hm : m ≠ name) :
    h'.local? t m = h.local? t m := by
  by_cases ht : t = r
  · rw [local?, local?, ht, ← Table.get?_erase_of_ne _ hm, hr.rest, Table.get?_erase_of_ne _ hm]
  · rw [local?, local?, hr.others t ht]

theorem lookup_of_ne (t : ScopeRef) {m : String} (hm : m ≠ name) :
    h'.lookup t m = h.lookup t m := by
  unfold lookup
  rw [hr.chain_eq]
  congr 1
  funext s
  exact hr.local?_of_ne s hm

/-- The name is looked up where it was bound if nothing before that binds it. -/
theorem lookup_eq {s : ScopeRef} {front back : List ScopeRef}
    (hchain : h.chain s = front ++ r :: back) (hfront : ∀ t ∈ front, t ≠ r ∧ ¬ h.Binds name t) :
    h'.lookup s name = some v := by
  have hnone : ∀ t ∈ front, h'.local? t name = none := by
    intro t ht
    obtain ⟨hne, hfree⟩ := hfront t ht
    rw [local?, hr.others t hne]
    exact Table.get?_eq_none_iff.2 fun hmem => hfree (binds_iff.2 hmem)
  rw [lookup, hr.chain_eq, hchain, List.findSome?_append, List.findSome?_eq_none_iff.2 hnone,
    Option.none_or, List.findSome?_cons, hr.bound]

end Rebinds

/-! ### Assignments -/

/-- The scope that an assignment changes: the nearest one that binds the name or, if none
does, the nearest frame. -/
inductive AssignsIn (h : Heap) (name : String) (s r : ScopeRef) : Prop
  | bound (hr : h.Nearest (h.Binds name) s r)
  | fresh (hfree : ∀ t, h.Outward s t → ¬ h.Binds name t)
      (hr : h.Nearest (fun t => (h.scope t).isFrame = true) s r)

section Assign

variable {s r r' : ScopeRef} {name : String}

theorem AssignsIn.outward (hr : h.AssignsIn name s r) : h.Outward s r := by
  cases hr with
  | bound hr => exact hr.outward
  | fresh _ hr => exact hr.outward

theorem Nearest.unique (hn : h.Nested) {p : ScopeRef → Prop} (hr : h.Nearest p s r)
    (hr' : h.Nearest p s r') : r = r' :=
  hn.outward_antisymm (hr.first r' hr'.outward hr'.holds) (hr'.first r hr.outward hr.holds)

theorem AssignsIn.unique (hn : h.Nested) (hr : h.AssignsIn name s r) (hr' : h.AssignsIn name s r') :
    r = r' := by
  cases hr with
  | bound hr =>
    cases hr' with
    | bound hr' => exact hr.unique hn hr'
    | fresh hfree _ => exact absurd hr.holds (hfree r hr.outward)
  | fresh hfree hr =>
    cases hr' with
    | bound hr' => exact absurd hr'.holds (hfree r' hr'.outward)
    | fresh _ hr' => exact hr.unique hn hr'

/-- An assignment binds the name in one scope, and no scope before that binds it. -/
theorem Nested.assign_eq_define (hn : h.Nested) (s : ScopeRef) (name : String) (v : Value) :
    ∃ r front back, h.AssignsIn name s r ∧ h.assign s name v = h.define r name v ∧
      h.chain s = front ++ r :: back ∧ ∀ t ∈ front, t ≠ r ∧ ¬ h.Binds name t := by
  unfold assign
  split
  next r hfind =>
    obtain ⟨hr, front, back, hchain, hfront⟩ := List.find?_eq_some_iff_append.1 hfind
    refine ⟨r, front, back, .bound (hn.nearest_of_find? hfind), rfl, hchain, fun t ht => ?_⟩
    have hfree : ¬ h.Binds name t := by simpa [Binds] using hfront t ht
    exact ⟨fun heq => hfree (heq ▸ hr), hfree⟩
  next hnone =>
    have hfree : ∀ t ∈ h.chain s, ¬ h.Binds name t := List.find?_eq_none.1 hnone
    obtain ⟨r, hfind⟩ := hn.exists_frame s
    obtain ⟨hr, front, back, hchain, hfront⟩ := List.find?_eq_some_iff_append.1 hfind
    refine ⟨r, front, back, .fresh (fun t ht => hfree t (hn.mem_chain_of_outward ht))
      (hn.nearest_of_find? hfind), ?_, hchain, fun t ht => ⟨?_, hfree t ?_⟩⟩
    · rw [defineInFrame, frameOf, hfind]
      rfl
    · rintro rfl
      simpa [hr] using hfront t ht
    · rw [hchain]
      exact List.mem_append_left _ ht

end Assign

end Heap

/-- An assignment changes one binding, the right one. Afterwards the name stands for the value.
The one scope that changed is the nearest one outwards that bound the name or, if none did, the
nearest frame; in it the other names keep their values and their order. And every other name
stands for the same as before, in every scope. -/
theorem assign_changes_one_binding {h : Heap} (hh : h.Scoped) {s : ScopeRef}
    (hs : s.id < h.scopes.size) (name : String) (v : Value) :
    (h.assign s name v).lookup s name = some v ∧
    (∃! r, h.AssignsIn name s r ∧ h.Rebinds (h.assign s name v) r name v) ∧
    ∀ (t : ScopeRef) (m : String), m ≠ name → (h.assign s name v).lookup t m = h.lookup t m := by
  have hn := hh.nested
  obtain ⟨r, front, back, hassigns, hdefine, hchain, hfront⟩ := hn.assign_eq_define s name v
  have hr : r.id < h.scopes.size := Nat.lt_of_le_of_lt (hn.le_of_outward hassigns.outward) hs
  have hrebinds := Heap.rebinds_define hr name v
  rw [hdefine]
  refine ⟨hrebinds.lookup_eq hchain hfront, ⟨r, ⟨hassigns, hrebinds⟩, ?_⟩, fun t m hm =>
    hrebinds.lookup_of_ne t hm⟩
  exact fun r' hr' => hr'.1.unique hn hassigns

/-- A global scope, a frame that hides one of the global names, a block in it, and another
frame. -/
def Sample.scopes : Heap :=
  let globals := (Heap.empty.newGlobal.2.define ⟨0⟩ "count" (.int 0)).define ⟨0⟩ "n" (.int 1)
  let frame := (globals.newFrame ⟨0⟩).2.define ⟨1⟩ "n" (.int 2)
  ((frame.newChild ⟨1⟩).2.newFrame ⟨0⟩).2

theorem Sample.scopes_scoped : Sample.scopes.Scoped := by
  have hglobals := (((Heap.Scoped.none (h := Heap.empty) rfl).step (.newGlobal _)).step
    (.define _ ⟨0⟩ "count" (.int 0))).step (.define _ ⟨0⟩ "n" (.int 1))
  have hframe := (hglobals.step (.newFrame (show (⟨0⟩ : ScopeRef).id < _ by decide))).step
    (.define _ ⟨1⟩ "n" (.int 2))
  exact (hframe.step (.newChild (by decide))).step (.newFrame (by decide))

/-- From the block, the hidden name is bound in the frame and a new name as well. -/
theorem assign_changes_one_binding_hidden :
    let h := Sample.scopes
    h.Scoped ∧ 2 < h.scopes.size ∧
      (h.assign ⟨2⟩ "n" (.int 5)).lookup ⟨2⟩ "n" = some (.int 5) ∧
      h.Rebinds (h.assign ⟨2⟩ "n" (.int 5)) ⟨1⟩ "n" (.int 5) ∧
      h.Rebinds (h.assign ⟨2⟩ "new" (.int 5)) ⟨1⟩ "new" (.int 5) ∧
      (h.assign ⟨2⟩ "new" (.int 5)).lookup ⟨3⟩ "n" = h.lookup ⟨3⟩ "n" := by
  intro h
  have hh := Sample.scopes_scoped
  have hs : 2 < h.scopes.size := by decide
  have hframe : h.Nearest (fun t => (h.scope t).isFrame = true) ⟨2⟩ ⟨1⟩ :=
    .beyond (q := ⟨1⟩) (by decide) rfl (.here (by decide))
  have hhidden : h.AssignsIn "n" ⟨2⟩ ⟨1⟩ :=
    .bound (.beyond (q := ⟨1⟩) (by decide) rfl (.here (by decide)))
  have hnew : h.AssignsIn "new" ⟨2⟩ ⟨1⟩ := by
    refine .fresh (fun t ht => ?_) hframe
    have hfree : ∀ t ∈ h.chain ⟨2⟩, ¬ h.Binds "new" t := by decide
    exact hfree t (hh.nested.mem_chain_of_outward ht)
  obtain ⟨hlookup, ⟨r, ⟨hr, hrebinds⟩, -⟩, -⟩ := assign_changes_one_binding hh hs "n" (.int 5)
  obtain ⟨-, ⟨r', ⟨hr', hrebinds'⟩, -⟩, hothers⟩ := assign_changes_one_binding hh hs "new" (.int 5)
  obtain rfl := hr.unique hh.nested hhidden
  obtain rfl := hr'.unique hh.nested hnew
  exact ⟨hh, hs, hlookup, hrebinds, hrebinds', hothers ⟨3⟩ "n" (by decide)⟩

end Scripting
