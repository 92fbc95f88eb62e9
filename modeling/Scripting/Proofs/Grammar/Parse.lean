/-
# Following the reading of tokens

What the small readers do in front of a reader that goes on from them. A reader of
the grammar is a sequence of these, so its way through given tokens is followed by
rewriting with them. The bound on recursion grows with every token (`Grammar.bound_cons`).
-/
import Scripting.Grammar.Expr

namespace Scripting

theorem Token.behind_cons {t : Token} {rest : List Token} (h : rest ≠ []) :
    Token.behind (t :: rest) = rest := by
  cases rest with
  | nil => exact absurd rfl h
  | cons u rest => rfl

theorem Token.Kind.eq_of_same {k k' : Token.Kind} (h : k.same k' = true) : k = k' := by
  unfold Token.Kind.same at h
  split at h <;> simp_all

theorem Token.Kind.same_eq_false {k k' : Token.Kind} {P : Token.Kind → Bool} (h : P k = true)
    (h' : P k' = false) : k.same k' = false := by
  cases hsame : k.same k' with
  | false => rfl
  | true =>
    rw [eq_of_same hsame, h'] at h
    cases h

namespace Parse

variable {α β : Type} {ts rest : List Token} {kind : Token.Kind}

theorem bind_of_ok {p : Parse α} {a : α} (h : p ts = .ok a rest) (next : α → Parse β) :
    (p >>= next) ts = next a rest := by
  change Parse.bind p next ts = next a rest
  unfold Parse.bind
  rw [h]

theorem bind_eq_ok {p : Parse α} {next : α → Parse β} {b : β}
    (h : (p >>= next) ts = .ok b rest) : ∃ a mid, p ts = .ok a mid ∧ next a mid = .ok b rest := by
  change Parse.bind p next ts = .ok b rest at h
  unfold Parse.bind at h
  cases hp : p ts with
  | ok a mid => rw [hp] at h; exact ⟨a, mid, rfl, h⟩
  | error d mid => rw [hp] at h; cases h
  | exhausted => rw [hp] at h; cases h

theorem bind_peek (next : Token → Parse β) : (peek >>= next) ts = next (Token.front ts) ts := rfl

theorem bind_here (next : Position → Parse β) :
    (here >>= next) ts = next (Token.front ts).pos ts := rfl

theorem bind_advance (next : Unit → Parse β) :
    (advance >>= next) ts = next () (Token.behind ts) := rfl

theorem bind_check (next : Bool → Parse β) :
    (check kind >>= next) ts = next ((Token.front ts).kind.same kind) ts := rfl

theorem bind_accept_of_same (h : (Token.front ts).kind.same kind = true) (next : Bool → Parse β) :
    (accept kind >>= next) ts = next true (Token.behind ts) :=
  bind_of_ok (if_pos h) next

theorem bind_accept_of_not_same (h : (Token.front ts).kind.same kind = false)
    (next : Bool → Parse β) : (accept kind >>= next) ts = next false ts :=
  bind_of_ok (if_neg (by simp [h])) next

theorem bind_expect_of_same (h : (Token.front ts).kind.same kind = true) (next : Unit → Parse β) :
    (expect kind >>= next) ts = next () (Token.behind ts) :=
  bind_of_ok (if_pos h) next

end Parse

/-! ### The bound on recursion -/

theorem Token.le_weight (t : Token) : 64 ≤ t.weight := by
  unfold weight
  split <;> omega

namespace Grammar

theorem bound_cons (t : Token) (ts : List Token) : bound (t :: ts) = t.weight + bound ts := by
  have hfold (n : Nat) : ts.foldl (fun n t => n + t.weight) (n + t.weight) =
      t.weight + ts.foldl (fun n t => n + t.weight) n := by
    induction ts generalizing n with
    | nil => exact Nat.add_comm n t.weight
    | cons u ts ih => rw [List.foldl_cons, List.foldl_cons, Nat.add_right_comm, ih]
  exact hfold 64

theorem bound_append (rest : List Token) : ∀ ts : List Token,
    bound (ts ++ rest) + 64 = bound ts + bound rest
  | [] => Nat.add_comm _ _
  | t :: ts => by
    have ih := bound_append rest ts
    rw [List.cons_append, bound_cons, bound_cons]
    omega

theorem le_bound : ∀ ts : List Token, 64 * (ts.length + 1) ≤ bound ts
  | [] => Nat.le_refl 64
  | t :: ts => by
    have ih := le_bound ts
    have ht := t.le_weight
    rw [bound_cons, List.length_cons]
    omega

theorem bound_replicate_append {t : Token} (ht : t.weight = 64) (rest : List Token) : ∀ n : Nat,
    bound (List.replicate n t ++ rest) = 64 * n + bound rest
  | 0 => (Nat.zero_add _).symm
  | n + 1 => by
    rw [List.replicate_succ, List.cons_append, bound_cons, ht, bound_replicate_append ht rest n]
    omega

/-! ### Items behind commas -/

open Parse

/-- A reader of further items up to a closing token, each behind a comma. -/
structure ReadsMore {β : Type} (reader : Nat → Parse β) (closing : Token.Kind)
    (more : Nat → Parse (List β)) : Prop where
  stop : ∀ bound ts, (Token.front ts).kind.same (.symbol .comma) = false →
    more (bound + 1) ts = .ok [] ts
  item : ∀ bound p ts, ts ≠ [] → (Token.front ts).kind.same closing = false →
    more (bound + 1) (⟨.symbol .comma, p⟩ :: ts) =
      (do let b ← reader bound; let bs ← more bound; pure (b :: bs)) ts

theorem moreItems_readsMore : ReadsMore expr (.symbol .rightBracket)
    fun bound => moreItems bound fun k => k.same (.symbol .rightBracket) where
  stop bound ts h := by
    rw [moreItems, bind_accept_of_not_same h]
    rfl
  item bound p ts hne h := by
    rw [moreItems, bind_accept_of_same rfl, Token.behind_cons hne]
    change (peek >>= _) ts = _
    rw [bind_peek, h]
    rfl

theorem moreEntries_readsMore : ReadsMore dictEntry (.symbol .rightBrace) moreEntries where
  stop bound ts h := by
    rw [moreEntries, bind_accept_of_not_same h]
    rfl
  item bound p ts hne h := by
    rw [moreEntries, bind_accept_of_same rfl, Token.behind_cons hne]
    change (check _ >>= _) ts = _
    rw [bind_check, h]
    rfl

end Grammar

end Scripting
