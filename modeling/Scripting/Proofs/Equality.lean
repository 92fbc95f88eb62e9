/-
# Equality is equality of contents

The content of a value is what is left when its references are followed: data in which a dict
is nothing but a map from names to data. On values without floats and functions, with
containers at most `comparisonDepth` deep, comparing two values never fails, and it says
whether their contents are the same, however the containers are shared. So it is reflexive,
symmetric and transitive on them (`equals_exact`).

On any other values, also on those that contain themselves, a comparison can fail in one way
only, and only if both sides have more containers inside each other than the limit allows.
-/
import Mathlib
import Scripting.Proofs.Table
import Scripting.Proofs.Traverse
import Scripting.Value.Equality

namespace Scripting

/-- Data without references. The entries of a dict have no order. -/
inductive Content where
  | none
  | bool (b : Bool)
  | int (n : Int64)
  | str (s : String)
  | error (message : String)
  | list (items : List Content)
  | dict (find : String → Option Content)

def Content.typeName : Content → String
  | .none => "NoneType"
  | .bool _ => "bool"
  | .int _ => "int"
  | .str _ => "str"
  | .error _ => "error"
  | .list _ => "list"
  | .dict _ => "dict"

def Value.isContainer : Value → Bool
  | .list _ | .dict _ => true
  | _ => false

def Value.isFloatOrFunction : Value → Bool
  | .float _ | .function _ => true
  | _ => false

namespace Heap

/-- The content of a value with containers at most some levels deep and without floats and
functions. -/
def content? (h : Heap) (levels : Nat) (v : Value) : Option Content :=
  match v, levels with
  | .none, _ => some .none
  | .bool b, _ => some (.bool b)
  | .int n, _ => some (.int n)
  | .str s, _ => some (.str s)
  | .error message, _ => some (.error message)
  | .list r, levels + 1 => ((h.list r).toList.mapM (h.content? levels)).map .list
  | .dict r, levels + 1 =>
    ((h.dict r).entries.mapM fun e => (h.content? levels e.2).map fun c => (e.1, c)).map
      fun entries => .dict fun name => Table.find name entries
  | _, _ => none

def parts (h : Heap) : Value → List Value
  | .list r => (h.list r).toList
  | .dict r => (h.dict r).values
  | _ => []

/-- Neither a value nor anything in it is a float or a function. -/
def Plain (h : Heap) (v : Value) : Prop :=
  ∀ part, Relation.ReflTransGen (fun v part => part ∈ h.parts v) v part →
    part.isFloatOrFunction = false

/-- A value begins a chain of so many containers, each of them in the one before it. -/
inductive Chain (h : Heap) : Nat → Value → Prop
  | last {v : Value} (hv : v.isContainer) : Chain h 1 v
  | link {v part : Value} {n : Nat} (hpart : part ∈ h.parts v) (hchain : Chain h n part) :
      Chain h (n + 1) v

/-- A value that can be compared with others of its sort: without floats and functions, and
with containers at most `comparisonDepth` deep. -/
structure Shallow (h : Heap) (v : Value) : Prop where
  plain : h.Plain v
  noChain : ¬ h.Chain (comparisonDepth + 1) v

variable {h : Heap} {v part : Value} {n : Nat}

theorem Plain.of_mem (hv : h.Plain v) (hpart : part ∈ h.parts v) : h.Plain part :=
  fun inner hinner => hv inner (.head hpart hinner)

theorem plain_of_parts (hv : v.isFloatOrFunction = false) (hparts : ∀ part ∈ h.parts v, h.Plain part) :
    h.Plain v := by
  intro inner hinner
  rcases Relation.ReflTransGen.cases_head hinner with rfl | ⟨part, hpart, hinner⟩
  · exact hv
  · exact hparts part hpart inner hinner

theorem chain_succ_iff (hv : v.isContainer) (n : Nat) :
    h.Chain (n + 1) v ↔ n = 0 ∨ ∃ part ∈ h.parts v, h.Chain n part := by
  constructor
  · rintro (_ | ⟨hpart, hchain⟩)
    · exact .inl rfl
    · exact .inr ⟨_, hpart, hchain⟩
  · rintro (rfl | ⟨part, hpart, hchain⟩)
    · exact .last hv
    · exact .link hpart hchain

theorem not_chain_of_not_isContainer (hv : v.isContainer = false) (n : Nat) : ¬ h.Chain n v := by
  rintro (hv' | ⟨hpart, -⟩)
  · rw [hv] at hv'
    cases hv'
  · cases v with
    | list | dict => cases hv
    | _ => cases hpart

/-! ### Which values have a content -/

theorem isSome_content?_of_parts (hv : v.isContainer) (levels : Nat) :
    (h.content? (levels + 1) v).isSome ↔ ∀ part ∈ h.parts v, (h.content? levels part).isSome := by
  cases v with
  | list r => simp only [content?, Option.isSome_map, isSome_mapM_iff, parts]
  | dict r =>
    simp only [content?, Option.isSome_map, isSome_mapM_iff, parts, Table.values, List.mem_map,
      forall_exists_index, and_imp, forall_apply_eq_imp_iff₂]
  | _ => cases hv

theorem isSome_content?_leaf (hv : v.isContainer = false) (levels : Nat) :
    (h.content? levels v).isSome ↔ h.Plain v ∧ ¬ h.Chain (levels + 1) v := by
  have hparts : h.parts v = [] := by
    cases v with
    | list | dict => cases hv
    | _ => rfl
  have hplain : h.Plain v ↔ v.isFloatOrFunction = false :=
    ⟨fun hplain => hplain v .refl, fun hself => plain_of_parts hself (by simp [hparts])⟩
  rw [and_iff_left (not_chain_of_not_isContainer hv _), hplain]
  cases v with
  | list | dict => cases hv
  | _ => simp [content?, Value.isFloatOrFunction]

/-- The values that have a content in some levels are those without floats and functions and
without a chain of more containers. -/
theorem isSome_content?_iff {levels : Nat} :
    (h.content? levels v).isSome ↔ h.Plain v ∧ ¬ h.Chain (levels + 1) v := by
  cases hv : v.isContainer with
  | false => exact isSome_content?_leaf hv levels
  | true =>
    induction levels generalizing v with
    | zero =>
      refine iff_of_false ?_ fun hplain => hplain.2 (.last hv)
      cases v with
      | list | dict => simp [content?]
      | _ => cases hv
    | succ levels ih =>
      have hparts (part : Value) :
          (h.content? levels part).isSome ↔ h.Plain part ∧ ¬ h.Chain (levels + 1) part := by
        cases hpart : part.isContainer with
        | false => exact isSome_content?_leaf hpart levels
        | true => exact ih hpart
      have hself : v.isFloatOrFunction = false := by
        cases v with
        | float | function => cases hv
        | _ => rfl
      rw [isSome_content?_of_parts hv, chain_succ_iff hv]
      simp only [hparts, Nat.succ_ne_zero, false_or, not_exists, not_and]
      constructor
      · intro hall
        exact ⟨plain_of_parts hself fun part hpart => (hall part hpart).1,
          fun part hpart => (hall part hpart).2⟩
      · rintro ⟨hplain, hchain⟩ part hpart
        exact ⟨hplain.of_mem hpart, hchain part hpart⟩

theorem Shallow.of_isSome (hv : (h.content? comparisonDepth v).isSome) : h.Shallow v :=
  ⟨(isSome_content?_iff.1 hv).1, (isSome_content?_iff.1 hv).2⟩

end Heap

/-! ### Maps without an order -/

namespace Table

variable {α β : Type}

theorem length_eq_of_find_eq {xs ys : List (String × α)} (hxs : (xs.map Prod.fst).Nodup)
    (hys : (ys.map Prod.fst).Nodup)
    (h : (fun name => find name xs) = fun name => find name ys) : xs.length = ys.length := by
  have hnames : (xs.map Prod.fst).Perm (ys.map Prod.fst) := by
    rw [List.perm_ext_iff_of_nodup hxs hys]
    intro name
    rw [← not_iff_not, ← find_eq_none_iff, ← find_eq_none_iff, congrFun h name]
  simpa using hnames.length_eq

theorem find_eq_iff {xs ys : List (String × α)} (hxs : (xs.map Prod.fst).Nodup)
    (hlength : xs.length = ys.length) :
    ((fun name => find name xs) = fun name => find name ys) ↔
      ∀ e ∈ xs, find e.1 ys = some e.2 := by
  constructor
  · intro h e he
    rw [← congrFun h e.1]
    exact find_of_mem hxs he
  intro h
  have hsub : xs.map Prod.fst ⊆ ys.map Prod.fst := by
    intro name hname
    obtain ⟨e, he, rfl⟩ := List.mem_map.1 hname
    exact List.mem_map_of_mem (mem_of_find (h e he))
  have hnames : (xs.map Prod.fst).Perm (ys.map Prod.fst) :=
    (hxs.subperm hsub).perm_of_length_le (by simp [hlength])
  funext name
  cases hname : find name xs with
  | some a => exact (h _ (mem_of_find hname)).symm
  | none =>
    rw [find_eq_none_iff, hnames.mem_iff] at hname
    exact (find_eq_none_iff.2 hname).symm

end Table

/-! ### Comparing contents -/

section Comparing

variable {α β : Type} {test : α → α → Except Fault Bool} {content : α → Option β}
  (htest : ∀ a b x y, content a = some x → content b = some y →
    ∃ same, test a b = .ok same ∧ (same = true ↔ x = y))
include htest

theorem allPairs_of_content : ∀ {as bs : List α} {xs ys : List β},
    List.Forall₂ (fun a x => content a = some x) as xs →
    List.Forall₂ (fun b y => content b = some y) bs ys → as.length = bs.length →
    ∃ same, allPairs test (as.zip bs) = .ok same ∧ (same = true ↔ xs = ys)
  | _, _, _, _, .nil, .nil, _ => ⟨true, rfl, by simp⟩
  | a :: as, b :: bs, x :: xs, y :: ys, .cons ha has, .cons hb hbs, hlength => by
    obtain ⟨same, hsame, hiff⟩ := htest a b x y ha hb
    rw [List.zip_cons_cons, allPairs, hsame]
    cases same with
    | false => exact ⟨false, rfl, by simpa using fun hxy _ => hiff.2 hxy⟩
    | true =>
      obtain ⟨rest, hrest, hiff'⟩ := allPairs_of_content has hbs (by simpa using hlength)
      exact ⟨rest, hrest, by rw [hiff', List.cons.injEq, and_iff_right (hiff.1 rfl)]⟩

omit htest in
theorem find_of_content (name : String) : ∀ {entries : List (String × α)}
    {contents : List (String × β)},
    List.Forall₂ (fun e c => e.1 = c.1 ∧ content e.2 = some c.2) entries contents →
    (Table.find name entries = none ∧ Table.find name contents = none) ∨
      ∃ a x, Table.find name entries = some a ∧ Table.find name contents = some x ∧
        content a = some x := by
  intro entries contents h
  induction h with
  | nil => exact .inl ⟨rfl, rfl⟩
  | @cons e c _ _ hec _ ih =>
    rw [Table.find, Table.find, ← hec.1]
    by_cases he : e.1 = name
    · rw [if_pos he, if_pos he]
      exact .inr ⟨_, _, rfl, rfl, hec.2⟩
    · rw [if_neg he, if_neg he]
      exact ih

theorem allEntries_of_content {other : Table α} {others : List (String × β)}
    (hother : List.Forall₂ (fun e c => e.1 = c.1 ∧ content e.2 = some c.2) other.entries others) :
    ∀ {entries : List (String × α)} {contents : List (String × β)},
    List.Forall₂ (fun e c => e.1 = c.1 ∧ content e.2 = some c.2) entries contents →
    ∃ same, allEntries test other entries = .ok same ∧
      (same = true ↔ ∀ c ∈ contents, Table.find c.1 others = some c.2)
  | _, _, .nil => ⟨true, rfl, by simp⟩
  | e :: entries, c :: contents, .cons hec hrest => by
    rw [allEntries, List.forall_mem_cons, ← hec.1]
    rcases find_of_content e.1 hother with ⟨hnone, hnone'⟩ | ⟨b, y, hb, hy, hby⟩
    · rw [Table.get?, hnone, hnone']
      exact ⟨false, rfl, by simp⟩
    rw [Table.get?, hb, hy]
    obtain ⟨same, hsame, hiff⟩ := htest e.2 b c.2 y hec.2 hby
    dsimp only
    rw [hsame, Option.some_inj, eq_comm, ← hiff]
    cases same with
    | false => exact ⟨false, rfl, by simp⟩
    | true =>
      obtain ⟨rest, hrest, hiff'⟩ := allEntries_of_content hother hrest
      exact ⟨rest, hrest, by rw [hiff', and_iff_right rfl]⟩

end Comparing

namespace Heap

variable {h : Heap} {a b : Value} {x y : Content} {levels : Nat}

theorem content?_list_iff {r : ListRef} :
    h.content? (levels + 1) (.list r) = some x ↔ ∃ items, x = .list items ∧
      List.Forall₂ (fun v c => h.content? levels v = some c) (h.list r).toList items := by
  rw [content?, Option.map_eq_some_iff]
  simp only [mapM_eq_some_iff]
  exact ⟨fun ⟨items, hitems, hx⟩ => ⟨items, hx.symm, hitems⟩,
    fun ⟨items, hx, hitems⟩ => ⟨items, hitems, hx.symm⟩⟩

theorem content?_dict_iff {r : DictRef} :
    h.content? (levels + 1) (.dict r) = some x ↔ ∃ entries,
      x = .dict (fun name => Table.find name entries) ∧
      List.Forall₂ (fun e c => e.1 = c.1 ∧ h.content? levels e.2 = some c.2)
        (h.dict r).entries entries := by
  have hentry (e : String × Value) (c : String × Content) :
      (h.content? levels e.2).map (fun c => (e.1, c)) = some c ↔
        e.1 = c.1 ∧ h.content? levels e.2 = some c.2 := by
    rw [Option.map_eq_some_iff]
    exact ⟨fun ⟨c', hc', hc⟩ => hc ▸ ⟨rfl, hc'⟩, fun ⟨hname, hc⟩ => ⟨c.2, hc, Prod.ext hname rfl⟩⟩
  rw [content?, Option.map_eq_some_iff]
  simp only [mapM_eq_some_iff, hentry]
  exact ⟨fun ⟨entries, hentries, hx⟩ => ⟨entries, hx.symm, hentries⟩,
    fun ⟨entries, hx, hentries⟩ => ⟨entries, hentries, hx.symm⟩⟩

/-- A comparison of two values with these contents says whether the contents are the same. -/
def Tells (result : Except Fault Bool) (x y : Content) : Prop :=
  ∃ same, result = .ok same ∧ (same = true ↔ x = y)

section Containers

variable (ih : ∀ a b x y, h.content? levels a = some x → h.content? levels b = some y →
  Tells (h.equalsWithin levels a b) x y)
include ih

theorem equalsWithin_list {r s : ListRef} (hx : h.content? (levels + 1) (.list r) = some x)
    (hy : h.content? (levels + 1) (.list s) = some y) :
    Tells (h.equalsWithin (levels + 1) (.list r) (.list s)) x y := by
  rw [equalsWithin]
  by_cases hrs : r = s
  · subst hrs
    rw [if_pos rfl]
    exact ⟨true, rfl, iff_of_true rfl (Option.some_inj.1 (hx.symm.trans hy))⟩
  rw [if_neg hrs]
  obtain ⟨xs, rfl, hxs⟩ := content?_list_iff.1 hx
  obtain ⟨ys, rfl, hys⟩ := content?_list_iff.1 hy
  by_cases hsize : (h.list r).size = (h.list s).size
  · rw [if_neg (not_not_intro hsize)]
    obtain ⟨same, hsame, hiff⟩ := allPairs_of_content ih hxs hys hsize
    exact ⟨same, hsame, by rw [hiff, Content.list.injEq]⟩
  rw [if_pos hsize]
  refine ⟨false, rfl, iff_of_false Bool.false_ne_true fun hxy => hsize ?_⟩
  rw [Content.list.injEq] at hxy
  exact hxs.length_eq.trans ((congrArg List.length hxy).trans hys.length_eq.symm)

theorem equalsWithin_dict {r s : DictRef} (hx : h.content? (levels + 1) (.dict r) = some x)
    (hy : h.content? (levels + 1) (.dict s) = some y) :
    Tells (h.equalsWithin (levels + 1) (.dict r) (.dict s)) x y := by
  rw [equalsWithin]
  by_cases hrs : r = s
  · subst hrs
    rw [if_pos rfl]
    exact ⟨true, rfl, iff_of_true rfl (Option.some_inj.1 (hx.symm.trans hy))⟩
  rw [if_neg hrs]
  obtain ⟨xs, rfl, hxs⟩ := content?_dict_iff.1 hx
  obtain ⟨ys, rfl, hys⟩ := content?_dict_iff.1 hy
  have hdistinct {t : Table Value} {contents : List (String × Content)}
      (hcontents : List.Forall₂ (fun e c => e.1 = c.1 ∧ h.content? levels e.2 = some c.2)
        t.entries contents) : (contents.map Prod.fst).Nodup := by
    have hnames : t.entries.map Prod.fst = contents.map Prod.fst := by
      rw [← List.forall₂_eq_eq_eq, List.forall₂_map_left_iff, List.forall₂_map_right_iff]
      exact hcontents.imp fun _ _ hec => hec.1
    exact hnames ▸ t.distinct
  by_cases hsize : (h.dict r).size = (h.dict s).size
  · rw [if_neg (not_not_intro hsize)]
    have hlength : xs.length = ys.length := hxs.length_eq.symm.trans (hsize.trans hys.length_eq)
    obtain ⟨same, hsame, hiff⟩ := allEntries_of_content ih hys hxs
    exact ⟨same, hsame, by rw [hiff, Content.dict.injEq, Table.find_eq_iff (hdistinct hxs) hlength]⟩
  rw [if_pos hsize]
  refine ⟨false, rfl, iff_of_false Bool.false_ne_true fun hxy => hsize ?_⟩
  rw [Content.dict.injEq] at hxy
  exact hxs.length_eq.trans ((Table.length_eq_of_find_eq (hdistinct hxs) (hdistinct hys) hxy).trans
    hys.length_eq.symm)

end Containers

theorem typeName_of_content (hx : h.content? levels a = some x) : a.typeName = x.typeName := by
  unfold content? at hx
  split at hx
  case h_8 => cases hx
  case h_6 | h_7 =>
    obtain ⟨_, -, rfl⟩ := Option.map_eq_some_iff.1 hx
    rfl
  all_goals
    cases hx
    rfl

/-- Apart from two lists and two dicts nothing has to be looked into. -/
theorem equalsWithin_leaf (hlists : ∀ r s, a = .list r → b ≠ .list s)
    (hdicts : ∀ r s, a = .dict r → b ≠ .dict s) (hx : h.content? levels a = some x)
    (hy : h.content? levels b = some y) : Tells (h.equalsWithin levels a b) x y := by
  unfold equalsWithin
  split
  case h_4 | h_5 | h_6 | h_10 => simp [content?] at hx hy
  case h_8 => exact absurd rfl (hlists _ _ rfl)
  case h_9 => exact absurd rfl (hdicts _ _ rfl)
  case h_12 =>
    -- the values are of different kinds, and so are their contents
    refine ⟨false, rfl, iff_of_false Bool.false_ne_true ?_⟩
    rintro rfl
    have hkind := (typeName_of_content hx).trans (typeName_of_content hy).symm
    cases a <;> cases b <;> simp_all [Value.typeName]
  all_goals
    simp only [content?, Option.some.injEq] at hx hy
    subst hx hy
    exact ⟨_, rfl, by simp⟩

/-- Comparing two values that have a content in some levels tells whether it is the same. -/
theorem equalsWithin_of_content (levels : Nat) (a b : Value) (x y : Content)
    (hx : h.content? levels a = some x) (hy : h.content? levels b = some y) :
    Tells (h.equalsWithin levels a b) x y := by
  induction levels generalizing a b x y with
  | zero =>
    refine equalsWithin_leaf ?_ ?_ hx hy
    all_goals
      rintro r s rfl
      cases hx
  | succ levels ih =>
    by_cases hlists : ∃ r s, a = .list r ∧ b = .list s
    · obtain ⟨r, s, rfl, rfl⟩ := hlists
      exact equalsWithin_list ih hx hy
    by_cases hdicts : ∃ r s, a = .dict r ∧ b = .dict s
    · obtain ⟨r, s, rfl, rfl⟩ := hdicts
      exact equalsWithin_dict ih hx hy
    exact equalsWithin_leaf (fun r s hr hs => hlists ⟨r, s, hr, hs⟩)
      (fun r s hr hs => hdicts ⟨r, s, hr, hs⟩) hx hy

end Heap

/-! ### How a comparison fails -/

theorem allPairs_error {α β : Type} {test : α → β → Except Fault Bool} {f : Fault} :
    ∀ {pairs : List (α × β)}, allPairs test pairs = .error f → ∃ p ∈ pairs, test p.1 p.2 = .error f
  | [], h => by cases h
  | (a, b) :: rest, h => by
    rw [allPairs] at h
    split at h
    · obtain ⟨p, hp, hf⟩ := allPairs_error h
      exact ⟨p, .tail _ hp, hf⟩
    · exact ⟨(a, b), .head _, h⟩

theorem allEntries_error {α β : Type} {test : α → β → Except Fault Bool} {other : Table β}
    {f : Fault} : ∀ {entries : List (String × α)}, allEntries test other entries = .error f →
      ∃ e ∈ entries, ∃ b, other.get? e.1 = some b ∧ test e.2 b = .error f
  | [], h => by cases h
  | (name, a) :: rest, h => by
    rw [allEntries] at h
    split at h
    · cases h
    next b hb =>
      split at h
      · obtain ⟨e, he, hf⟩ := allEntries_error h
        exact ⟨e, .tail _ he, hf⟩
      · exact ⟨(name, a), .head _, b, hb, h⟩

/-- A comparison fails only if both values go deeper than it may look. -/
theorem Heap.chain_of_equalsWithin {h : Heap} {levels : Nat} {a b : Value} {f : Fault}
    (hf : h.equalsWithin levels a b = .error f) :
    f = comparisonFault ∧ h.Chain (levels + 1) a ∧ h.Chain (levels + 1) b := by
  induction levels generalizing a b with
  | zero =>
    unfold equalsWithin at hf
    split at hf
    case h_8 | h_9 =>
      split_ifs at hf
      cases hf
      exact ⟨rfl, .last rfl, .last rfl⟩
    all_goals cases hf
  | succ levels ih =>
    unfold equalsWithin at hf
    split at hf
    case h_8 r s =>
      split_ifs at hf
      obtain ⟨p, hp, hf⟩ := allPairs_error hf
      obtain ⟨ha, hb⟩ := List.of_mem_zip hp
      obtain ⟨hfault, hca, hcb⟩ := ih hf
      exact ⟨hfault, .link ha hca, .link hb hcb⟩
    case h_9 r s =>
      split_ifs at hf
      obtain ⟨e, he, v, hv, hf⟩ := allEntries_error hf
      obtain ⟨hfault, hca, hcb⟩ := ih hf
      exact ⟨hfault, .link (List.mem_map_of_mem he) hca,
        .link (List.mem_map_of_mem (Table.mem_of_find hv)) hcb⟩
    all_goals cases hf

/-- **Equality is exact.** Of values without floats and functions that are not too deep it says
whether their contents are the same, and so it is an equivalence on them. Of any values it
fails only because both are too deep. -/
theorem equals_exact (h : Heap) :
    (∀ a b, h.Shallow a → h.Shallow b → ∃ x y same, h.content? comparisonDepth a = some x ∧
      h.content? comparisonDepth b = some y ∧ h.equals a b = .ok same ∧ (same = true ↔ x = y)) ∧
    (∀ a, h.Shallow a → h.equals a a = .ok true) ∧
    (∀ a b, h.Shallow a → h.Shallow b → h.equals a b = h.equals b a) ∧
    (∀ a b c, h.Shallow a → h.Shallow b → h.Shallow c → h.equals a b = .ok true →
      h.equals b c = .ok true → h.equals a c = .ok true) ∧
    (∀ a b, (∃ same, h.equals a b = .ok same) ∨
      h.equals a b = .error comparisonFault ∧ comparisonFault.kind = .stackOverflow ∧
        h.Chain (comparisonDepth + 1) a ∧ h.Chain (comparisonDepth + 1) b) := by
  have hcontent (a : Value) (ha : h.Shallow a) : ∃ x, h.content? comparisonDepth a = some x :=
    Option.isSome_iff_exists.1 (Heap.isSome_content?_iff.2 ⟨ha.plain, ha.noChain⟩)
  choose content hcontent using hcontent
  have htells (a b : Value) (ha : h.Shallow a) (hb : h.Shallow b) :
      Heap.Tells (h.equals a b) (content a ha) (content b hb) :=
    Heap.equalsWithin_of_content _ a b _ _ (hcontent a ha) (hcontent b hb)
  refine ⟨fun a b ha hb => ?_, fun a ha => ?_, fun a b ha hb => ?_, fun a b c ha hb hc hab hbc => ?_,
    fun a b => ?_⟩
  · obtain ⟨same, hsame, hiff⟩ := htells a b ha hb
    exact ⟨_, _, same, hcontent a ha, hcontent b hb, hsame, hiff⟩
  · obtain ⟨same, hsame, hiff⟩ := htells a a ha ha
    rw [hsame, hiff.2 rfl]
  · obtain ⟨same, hsame, hiff⟩ := htells a b ha hb
    obtain ⟨same', hsame', hiff'⟩ := htells b a hb ha
    rw [hsame, hsame', Bool.eq_iff_iff.2 (hiff.trans (eq_comm.trans hiff'.symm))]
  · obtain ⟨same, hsame, hiff⟩ := htells a b ha hb
    obtain ⟨same', hsame', hiff'⟩ := htells b c hb hc
    obtain ⟨same'', hsame'', hiff''⟩ := htells a c ha hc
    rw [hsame, Except.ok.injEq] at hab
    rw [hsame', Except.ok.injEq] at hbc
    rw [hsame'', hiff''.2 ((hiff.1 hab).trans (hiff'.1 hbc))]
  cases hresult : h.equals a b with
  | ok same => exact .inl ⟨same, rfl⟩
  | error f =>
    obtain ⟨rfl, hca, hcb⟩ := Heap.chain_of_equalsWithin hresult
    exact .inr ⟨rfl, rfl, hca, hcb⟩

/-- A list with one dict twice equals a list with two dicts that have the same entries in
different orders. Two lists that contain themselves are too deep on both sides. -/
theorem equals_exact_shared :
    let xy : Table Value := (Table.empty.insert "x" (.int 1)).insert "y" (.str "")
    let yx : Table Value := (Table.empty.insert "y" (.str "")).insert "x" (.int 1)
    let h : Heap := ⟨#[#[.dict ⟨0⟩, .dict ⟨0⟩], #[.dict ⟨1⟩, .dict ⟨0⟩], #[.list ⟨2⟩], #[.list ⟨3⟩]],
      #[xy, yx], #[], #[]⟩
    h.Shallow (.list ⟨0⟩) ∧ h.Shallow (.list ⟨1⟩) ∧
    h.equals (.list ⟨0⟩) (.list ⟨1⟩) = .ok true ∧ h.equals (.list ⟨1⟩) (.list ⟨0⟩) = .ok true ∧
    h.equals (.list ⟨2⟩) (.list ⟨3⟩) = .error comparisonFault ∧
    h.Chain (comparisonDepth + 1) (.list ⟨2⟩) ∧ h.Chain (comparisonDepth + 1) (.list ⟨3⟩) := by
  intro xy yx h
  have hleft : h.Shallow (.list ⟨0⟩) := .of_isSome rfl
  have hright : h.Shallow (.list ⟨1⟩) := .of_isSome rfl
  obtain ⟨-, -, hsymm, -, hfails⟩ := equals_exact h
  have hequal : h.equals (.list ⟨0⟩) (.list ⟨1⟩) = .ok true := rfl
  have hcyclic (levels : Nat) :
      h.equalsWithin levels (.list ⟨2⟩) (.list ⟨3⟩) = .error comparisonFault := by
    induction levels with
    | zero => rfl
    | succ levels ih =>
      change allPairs (h.equalsWithin levels) [(.list ⟨2⟩, .list ⟨3⟩)] = _
      rw [allPairs, ih]
  refine ⟨hleft, hright, hequal, (hsymm _ _ hright hleft).trans hequal, hcyclic _, ?_⟩
  rcases hfails (.list ⟨2⟩) (.list ⟨3⟩) with ⟨same, hsame⟩ | ⟨-, -, hchains⟩
  · cases hsame.symm.trans (hcyclic _)
  · exact hchains

end Scripting
