/-
# Reading tokens of given kinds

A reader leads through tokens of given kinds if, whatever their positions and whatever
comes behind them, it finds something of a sort and goes on from there as another reader
(`Parse.Leads`). What comes behind is not read, but it is looked at: it has to begin with a
token that the reader does not take (`Leading`). A reader that is done goes on as `pure`.

The readers of the grammar are sequences of small readers, so the way of a reader through
its tokens is put together from the rules for these, in the order of the tokens.
-/
import Scripting.Proofs.Grammar.Parse

namespace Scripting

variable {sort follow : Token.Kind → Prop} {k : Token.Kind} {ks : List Token.Kind}

/-- What comes first is of a sort: the first of some kinds, or what may follow them. -/
def Leading (ks : List Token.Kind) (follow sort : Token.Kind → Prop) : Prop :=
  match ks with
  | [] => ∀ k, follow k → sort k
  | k :: _ => sort k

theorem Leading.imp {sort' : Token.Kind → Prop} (h : Leading ks follow sort)
    (himp : ∀ k, sort k → sort' k) : Leading ks follow sort' := by
  cases ks with
  | nil => exact fun k hk => himp k (h k hk)
  | cons k ks => exact himp k h

theorem Leading.append (h : Leading ks follow sort) (hks : 0 < ks.length) (ks' : List Token.Kind)
    (follow' : Token.Kind → Prop) : Leading (ks ++ ks') follow' sort := by
  cases ks with
  | nil => cases hks
  | cons k ks => exact h

theorem Leading.trivial (ks : List Token.Kind) (follow : Token.Kind → Prop) :
    Leading ks follow fun _ => True := by
  cases ks with
  | nil => exact fun _ _ => True.intro
  | cons k ks => exact True.intro

theorem Leading.front (h : Leading ks follow sort) {ts rest : List Token}
    (hts : ts.map Token.kind = ks) (hrest : follow (Token.front rest).kind) :
    sort (Token.front (ts ++ rest)).kind := by
  subst hts
  cases ts with
  | nil => exact h _ hrest
  | cons t ts => exact h

namespace Parse

variable {α β γ : Type}

/-- A reader finds something of a sort in tokens of these kinds, and goes on from behind
them as another reader. -/
def Leads (p : Parse β) (ks : List Token.Kind) (follow : Token.Kind → Prop) (P : α → Prop)
    (q : α → Parse β) : Prop :=
  ∀ ts rest, ts.map Token.kind = ks → rest ≠ [] → follow (Token.front rest).kind →
    ∃ a, P a ∧ p (ts ++ rest) = q a rest

/-- A reader reads tokens of these kinds as something of a sort. -/
def Reads (p : Parse α) (ks : List Token.Kind) (follow : Token.Kind → Prop) (P : α → Prop) : Prop :=
  Leads p ks follow P pure

variable {p : Parse β} {ks' : List Token.Kind} {follow' : Token.Kind → Prop} {P P' : α → Prop}
  {q : α → Parse β} {kind : Token.Kind}

namespace Leads

theorem stop (a : α) (h : P a) (hp : p = q a) : Leads p [] follow P q := fun ts rest hts _ _ => by
  cases List.map_eq_nil_iff.1 hts
  exact ⟨a, h, congrFun hp rest⟩

theorem done {a : β} {P : β → Prop} (h : P a) : Reads (pure a) [] follow P := stop a h rfl

theorem imp (h : Leads p ks follow P q) (hfollow : ∀ k, follow' k → follow k)
    (himp : ∀ a, P a → P' a) : Leads p ks follow' P' q := fun ts rest hts hne hrest => by
  obtain ⟨a, ha, hp⟩ := h ts rest hts hne (hfollow _ hrest)
  exact ⟨a, himp a ha, hp⟩

theorem trans {Q : γ → Prop} {r : γ → Parse β} (h : Leads p ks follow P q)
    (hjoin : Leading ks' follow' follow) (hnext : ∀ a, P a → Leads (q a) ks' follow' Q r) :
    Leads p (ks ++ ks') follow' Q r := fun ts rest hts hne hrest => by
  obtain ⟨ts₁, ts₂, rfl, h₁, h₂⟩ := List.map_eq_append_iff.1 hts
  obtain ⟨a, ha, hp⟩ := h ts₁ (ts₂ ++ rest) h₁ (by simp [hne]) (hjoin.front h₂ hrest)
  obtain ⟨c, hc, hq⟩ := hnext a ha ts₂ rest h₂ hne hrest
  exact ⟨c, hc, by rw [List.append_assoc, hp, hq]⟩

theorem consFront {p' : Parse β} (hfirst : Leading ks follow sort) (h : Leads p' ks follow P q)
    (htake : ∀ pos ts, ts ≠ [] → sort (Token.front ts).kind → p (⟨k, pos⟩ :: ts) = p' ts) :
    Leads p (k :: ks) follow P q := fun ts rest hts hne hrest => by
  obtain ⟨t, us, rfl, rfl, hus⟩ := List.map_eq_cons_iff.1 hts
  obtain ⟨a, ha, hp⟩ := h us rest hus hne hrest
  refine ⟨a, ha, ?_⟩
  rw [List.cons_append, htake _ _ (by simp [hne]) (hfirst.front hus hrest), hp]

theorem cons {p' : Parse β} (h : Leads p' ks follow P q)
    (htake : ∀ pos ts, ts ≠ [] → p (⟨k, pos⟩ :: ts) = p' ts) : Leads p (k :: ks) follow P q :=
  consFront (.trivial ks follow) h fun pos ts hne _ => htake pos ts hne

theorem look {p' : Parse β} (hfirst : Leading ks follow sort) (h : Leads p' ks follow P q)
    (hlook : ∀ ts, sort (Token.front ts).kind → p ts = p' ts) : Leads p ks follow P q :=
  fun ts rest hts hne hrest => by
    obtain ⟨a, ha, hp⟩ := h ts rest hts hne hrest
    exact ⟨a, ha, by rw [hlook _ (hfirst.front hts hrest), hp]⟩

theorem here {next : Position → Parse β} (h : ∀ pos, Leads (next pos) ks follow P q) :
    Leads (here >>= next) ks follow P q := fun ts rest => h (Token.front (ts ++ rest)).pos ts rest

theorem peek {next : Token → Parse β} (h : ∀ pos, Leads (next ⟨k, pos⟩) (k :: ks) follow P q) :
    Leads (peek >>= next) (k :: ks) follow P q := fun ts rest hts hne hrest => by
  obtain ⟨t, us, rfl, rfl, -⟩ := List.map_eq_cons_iff.1 hts
  exact h t.pos (t :: us) rest hts hne hrest

theorem advance {next : Unit → Parse β} (h : Leads (next ()) ks follow P q) :
    Leads (advance >>= next) (k :: ks) follow P q :=
  h.cons fun pos ts hne => by rw [bind_advance, Token.behind_cons hne]

theorem expect {next : Unit → Parse β} (h : Leads (next ()) ks follow P q)
    (hsame : kind.same kind = true) : Leads (expect kind >>= next) (kind :: ks) follow P q :=
  h.cons fun pos ts hne => by
    have hfront : (Token.front (⟨kind, pos⟩ :: ts)).kind.same kind = true := hsame
    rw [bind_expect_of_same hfront, Token.behind_cons hne]

theorem expectName {x : String} {next : String → Parse β} (h : Leads (next x) ks follow P q) :
    Leads (expectName >>= next) (.name x :: ks) follow P q :=
  h.cons fun pos ts hne => by
    have hname : Parse.expectName (⟨.name x, pos⟩ :: ts) = .ok x (Token.behind (⟨.name x, pos⟩ :: ts)) :=
      rfl
    rw [bind_of_ok hname, Token.behind_cons hne]

theorem accept {yes no : Parse β} (h : Leads yes ks follow P q) (hsame : kind.same kind = true) :
    Leads (do if ← accept kind then yes else no) (kind :: ks) follow P q :=
  h.cons fun pos ts hne => by
    have hfront : (Token.front (⟨kind, pos⟩ :: ts)).kind.same kind = true := hsame
    rw [bind_accept_of_same hfront, Token.behind_cons hne]
    rfl

theorem skip {yes no : Parse β} (hfirst : Leading ks follow fun k => k.same kind = false)
    (h : Leads no ks follow P q) : Leads (do if ← Parse.accept kind then yes else no) ks follow P q :=
  h.look hfirst fun ts hts => by
    rw [bind_accept_of_not_same hts]
    rfl

theorem check {yes no : Parse β} (hfirst : Leading ks follow fun k => k.same kind = true)
    (h : Leads yes ks follow P q) : Leads (do if ← check kind then yes else no) ks follow P q :=
  h.look hfirst fun ts hts => by
    rw [bind_check, hts]
    rfl

theorem miss {yes no : Parse β} (hfirst : Leading ks follow fun k => k.same kind = false)
    (h : Leads no ks follow P q) : Leads (do if ← Parse.check kind then yes else no) ks follow P q :=
  h.look hfirst fun ts hts => by
    rw [bind_check, hts]
    rfl

theorem missBoth {kind' : Token.Kind} {yes no : Parse β}
    (hfirst : Leading ks follow fun k => k.same kind = false ∧ k.same kind' = false)
    (h : Leads no ks follow P q) :
    Leads (do if (← Parse.check kind) || (← Parse.check kind') then yes else no) ks follow P q :=
  h.look hfirst fun ts hts => by
    rw [bind_check, bind_check, hts.1, hts.2]
    rfl

end Leads

namespace Reads

variable {p : Parse γ} {Q : γ → Prop} {next : γ → Parse β}

theorem imp {follow' : Token.Kind → Prop} {Q' : γ → Prop} (hp : Reads p ks follow Q)
    (hfollow : ∀ k, follow' k → follow k) (himp : ∀ c, Q c → Q' c) : Reads p ks follow' Q' :=
  Leads.imp hp hfollow himp

theorem bind (hp : Reads p ks follow Q) (hjoin : Leading ks' follow' follow)
    (hnext : ∀ c, Q c → Leads (next c) ks' follow' P q) :
    Leads (p >>= next) (ks ++ ks') follow' P q := by
  have hself : Leads (p >>= next) ks follow Q next := fun ts rest hts hne hrest => by
    obtain ⟨c, hc, hread⟩ := hp ts rest hts hne hrest
    exact ⟨c, hc, bind_of_ok hread next⟩
  exact hself.trans hjoin hnext

theorem last (hp : Reads p ks follow Q) (hnext : ∀ c, Q c → Leads (next c) [] follow P q) :
    Leads (p >>= next) ks follow P q := by
  have hjoin : Leading [] follow follow := fun _ hk => hk
  have h := hp.bind hjoin hnext
  rwa [List.append_nil] at h

end Reads

end Parse

end Scripting
