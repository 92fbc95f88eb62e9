/-
# Partial functions on all items of a list

A partial function has a value at all items of a list, and then the values are the items' own,
one by one (`mapM_eq_some_iff`), or there is an item at which it has none. And what relates two
lists item by item tells for every item of one of them what it is related to.
-/
import Mathlib.Data.List.Forall2

namespace Scripting

variable {α β : Type} {f : α → Option β}

theorem mapM_eq_some_iff : ∀ {as : List α} {bs : List β},
    as.mapM f = some bs ↔ List.Forall₂ (fun a b => f a = some b) as bs
  | [], bs => by
    rw [List.mapM_nil, List.forall₂_nil_left_iff, eq_comm]
    exact Option.some_inj
  | a :: as, bs => by
    rw [List.mapM_cons, List.forall₂_cons_left_iff]
    constructor
    · intro h
      obtain ⟨b, hb, h⟩ := Option.bind_eq_some_iff.1 h
      obtain ⟨rest, hrest, h⟩ := Option.bind_eq_some_iff.1 h
      cases h
      exact ⟨b, rest, hb, mapM_eq_some_iff.1 hrest, rfl⟩
    · rintro ⟨b, rest, hb, hrest, rfl⟩
      rw [hb, mapM_eq_some_iff.2 hrest]
      rfl

theorem mapM_congr_mem {g : α → Option β} : ∀ {as : List α},
    (∀ a ∈ as, f a = g a) → as.mapM f = as.mapM g
  | [], _ => rfl
  | a :: as, h => by
    rw [List.mapM_cons, List.mapM_cons, h a (.head _),
      mapM_congr_mem fun a ha => h a (.tail _ ha)]

theorem isSome_mapM_iff {as : List α} : (as.mapM f).isSome ↔ ∀ a ∈ as, (f a).isSome := by
  induction as with
  | nil => simp
  | cons a as ih =>
    rw [List.mapM_cons, List.forall_mem_cons, ← ih]
    cases f a <;> cases as.mapM f <;> simp

theorem mapM_of_forall_some {g : α → β} {as : List α} (h : ∀ a ∈ as, f a = some (g a)) :
    as.mapM f = some (as.map g) :=
  mapM_eq_some_iff.2 (List.forall₂_map_right_iff.2 (List.forall₂_same.2 h))

theorem mapM_of_exists_none {as : List α} (h : ∃ a ∈ as, f a = none) : as.mapM f = none := by
  obtain ⟨a, ha, hnone⟩ := h
  refine Option.not_isSome_iff_eq_none.1 fun hsome => ?_
  have hvalue := isSome_mapM_iff.1 hsome a ha
  rw [hnone] at hvalue
  cases hvalue

theorem exists_of_forall₂ {R : α → β → Prop} : ∀ {as : List α} {bs : List β},
    List.Forall₂ R as bs → ∀ b ∈ bs, ∃ a ∈ as, R a b
  | _, _, .nil, _, hb => nomatch hb
  | a :: _, _, .cons hab hrest, b', hb => by
    rcases List.mem_cons.1 hb with rfl | hb
    · exact ⟨a, .head _, hab⟩
    · obtain ⟨a', ha', hR⟩ := exists_of_forall₂ hrest b' hb
      exact ⟨a', .tail _ ha', hR⟩

theorem forall₂_imp_mem {R S : α → β → Prop} : ∀ {as : List α} {bs : List β},
    List.Forall₂ R as bs → (∀ a ∈ as, ∀ b, R a b → S a b) → List.Forall₂ S as bs
  | _, _, .nil, _ => .nil
  | a :: _, _, .cons hab hrest, h => .cons (h a (.head _) _ hab)
      (forall₂_imp_mem hrest fun a ha => h a (.tail _ ha))

end Scripting
