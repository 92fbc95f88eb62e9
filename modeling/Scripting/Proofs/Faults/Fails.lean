/-
# What a computation fails with

A computation fails within a set of errors if every error that it ends with is in that
set. A computation put together from others fails with what these fail with. So the sort,
whose comparison is given, fails with what a comparison fails with (`sortBy_fails`).
-/
import Scripting.Proofs.Sort.Linked
import Scripting.World

namespace Scripting

/-- Every error that a computation can end with is in a set. -/
def Fails {ε α : Type} (E : ε → Prop) (x : Except ε α) : Prop := ∀ e, x = .error e → E e

namespace Fails

variable {ε α β : Type} {E : ε → Prop}

theorem ok (a : α) : Fails E (.ok a : Except ε α) := by
  intro e h
  cases h

theorem pure (a : α) : Fails E (Pure.pure a : Except ε α) := Fails.ok a

theorem ends {x : Except ε α} (h : Fails E x) : Ends E (fun _ => True) x := by
  cases x with
  | ok a => trivial
  | error e => exact h e rfl

theorem ofEnds {P : α → Prop} {x : Except ε α} (h : Ends E P x) : Fails E x := by
  rintro e rfl
  exact h

theorem error {e : ε} (h : E e) : Fails E (.error e : Except ε α) := by
  intro e' he
  cases he
  exact h

theorem bind {x : Except ε α} {next : α → Except ε β} (hx : Fails E x)
    (hn : ∀ a, Fails E (next a)) : Fails E (x >>= next) := by
  intro e h
  cases x with
  | error e' =>
    cases h
    exact hx _ rfl
  | ok a => exact hn a e h

theorem map (f : α → β) {x : Except ε α} (hx : Fails E x) : Fails E (x.map f) := by
  intro e h
  cases x with
  | error e' =>
    cases h
    exact hx _ rfl
  | ok a => cases h

theorem ite {p : Prop} [Decidable p] {x y : Except ε α} (hx : Fails E x) (hy : Fails E y) :
    Fails E (if p then x else y) := by
  split
  · exact hx
  · exact hy

theorem mapM {f : α → Except ε β} (hf : ∀ a, Fails E (f a)) : ∀ xs : List α, Fails E (xs.mapM f)
  | [] => Fails.pure []
  | a :: rest => by
    rw [List.mapM_cons]
    exact (hf a).bind fun b => (Fails.mapM hf rest).bind fun bs => Fails.pure (b :: bs)

end Fails

/-- Every fault that a run can end with is in a set, whatever the world is. -/
def Run.Faults {α : Type} (E : Fault → Prop) (act : Run α) : Prop :=
  ∀ w f w', act w = .fault f w' → E f

/-! ### Sorting -/

/-- A sort fails only with what a comparison fails with. For this all items are related. -/
theorem sortBy_fails {α ε : Type} {E : ε → Prop} {before : α → α → Except ε Bool}
    (hb : ∀ a b, Fails E (before a b)) (widest : Sort.Group) (room : Nat) (xs : List α) :
    Fails E (sortBy widest room before xs) := by
  have hlinks : Sort.Links before (fun _ => True) E fun _ _ => True :=
    { asks := fun {a b} _ _ => (hb a b).ends
      symm := fun _ => trivial
      trans := fun _ _ => trivial }
  exact .ofEnds (sortBy_links hlinks widest room fun _ _ => trivial)

end Scripting
