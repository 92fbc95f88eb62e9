/-
# Expressions that write data

The written form of a value that stands for plain data, read as a source text, has the tokens of an
expression that writes the same data: a constant, a sign in front of a number, a list or dict
display (`Datum.Written`, `Heap.spelledAs_render`). Such an expression keeps to the rules of the
syntax, so the grammar reads it back from its tokens, up to positions. And an expression writes the
same data whatever its positions are (`Expr.StandsFor`).
-/
import Scripting.Proofs.Grammar.Program
import Scripting.Proofs.Precedence
import Scripting.Proofs.RoundTrip.Datum
import Scripting.Proofs.RoundTrip.Spelling

namespace Scripting

/-- The expressions that write data of at most so many levels. -/
def Datum.Written : Nat → Datum → Expr → Prop
  | 0, _, _ => False
  | _ + 1, .none, e => ∃ p, e = .none p
  | _ + 1, .bool b, e => ∃ p, e = .bool p b
  | _ + 1, .int n _, e => (∃ p, e = .int p n) ∨
      ∃ p q m, Word64.neg? m = some n ∧ e = .unary p .neg (.int q m)
  | _ + 1, .str s, e => ∃ p, e = .str p s
  | levels + 1, .list items, e => ∃ p es, e = .list p es ∧
      List.Forall₂ (Written levels) items es
  | levels + 1, .dict entries, e => ∃ p es, e = .dict p es ∧
      List.Forall₂ (fun d entry => (∃ p, entry.key = .str p d.1) ∧ Written levels d.2 entry.value)
        entries es

/-! ### Data -/

/-- An expression that can be written, and that is of a sort whatever its positions are. -/
structure Expr.StandsFor (e : Expr) (P : Expr → Prop) : Prop where
  plain : e.Plain
  sort : ∀ e' : Expr, e'.bare = e.bare → P e'

section Items

variable {α β γ : Type} {Q P : α → β → Prop}

theorem exists_map_of_forall₂ {f : β → γ} {as : List α} {cs : List γ}
    (h : List.Forall₂ (fun a c => ∃ b, Q a b ∧ c = f b) as cs) :
    ∃ bs, List.Forall₂ Q as bs ∧ cs = bs.map f := by
  induction h with
  | nil => exact ⟨[], .nil, rfl⟩
  | cons hac _ ih =>
    obtain ⟨b, hb, rfl⟩ := hac
    obtain ⟨bs, hbs, rfl⟩ := ih
    exact ⟨b :: bs, .cons hb hbs, rfl⟩

theorem forall₂_of_map_eq {f : β → γ} (hP : ∀ a b, Q a b → ∀ b', f b' = f b → P a b') {as : List α}
    {bs : List β} (h : List.Forall₂ Q as bs) : ∀ {bs' : List β}, bs'.map f = bs.map f →
    List.Forall₂ P as bs' := by
  induction h with
  | nil =>
    intro bs' hmap
    rw [List.map_eq_nil_iff.1 hmap]
    exact .nil
  | cons hab _ ih =>
    intro bs' hmap
    obtain ⟨b', bs', rfl, hb', hbs'⟩ := List.map_eq_cons_iff.1 hmap
    exact .cons (hP _ _ hab _ hb') (ih hbs')

end Items

theorem Expr.standsFor_int (p : Position) (n : Int64) :
    (Expr.int p n).StandsFor fun e => ∃ p, e = .int p n := by
  refine ⟨.noLoop trivial (by simp) rfl (by simp [Expr.parts]), fun e he => ?_⟩
  cases e <;> simp only [bare, reduceCtorEq, int.injEq, true_and] at he
  exact ⟨_, by rw [he]⟩

theorem Expr.standsFor_str (p : Position) (s : String) :
    (Expr.str p s).StandsFor fun e => ∃ p, e = .str p s := by
  refine ⟨.noLoop trivial (by simp) rfl (by simp [Expr.parts]), fun e he => ?_⟩
  cases e <;> simp only [bare, reduceCtorEq, str.injEq, true_and] at he
  exact ⟨_, by rw [he]⟩

/-- The tokens of the expressions that write some data. -/
def Datum.Spelled (levels : Nat) (d : Datum) (kinds : List Token.Kind) : Prop :=
  ∃ e : Expr, e.StandsFor (d.Written levels) ∧ kinds = e.kinds true

def Datum.SpelledEntry (levels : Nat) (d : String × Datum) (kinds : List Token.Kind) : Prop :=
  ∃ own, d.2.Spelled levels own ∧ kinds = .str d.1 :: .symbol .colon :: own

namespace Datum

variable {levels : Nat}

theorem spelled_none : Datum.none.Spelled (levels + 1) [.word .none_] := by
  refine ⟨.none .start, ⟨.noLoop trivial (by simp) rfl (by simp [Expr.parts]), fun e he => ?_⟩, ?_⟩
  · cases e <;> simp only [Expr.bare, reduceCtorEq] at he
    exact ⟨_, rfl⟩
  · simp [Expr.kinds]

theorem spelled_bool (b : Bool) :
    (Datum.bool b).Spelled (levels + 1) [.word (if b then .true_ else .false_)] := by
  refine ⟨.bool .start b, ⟨.noLoop trivial (by simp) rfl (by simp [Expr.parts]), fun e he => ?_⟩, ?_⟩
  · cases e <;> simp only [Expr.bare, reduceCtorEq, Expr.bool.injEq, true_and] at he
    exact ⟨_, by rw [he]⟩
  · simp [Expr.kinds]

theorem spelled_int {n : Int64} {hn : n ≠ Int64.minValue} :
    (Datum.int n hn).Spelled (levels + 1) [.int n] := by
  obtain ⟨hplain, hsort⟩ := Expr.standsFor_int .start n
  exact ⟨.int .start n, ⟨hplain, fun e he => .inl (hsort e he)⟩, by simp [Expr.kinds]⟩

theorem spelled_negative {n m : Int64} {hn : n ≠ Int64.minValue} (hm : Word64.neg? m = some n) :
    (Datum.int n hn).Spelled (levels + 1) [.symbol .minus, .int m] := by
  obtain ⟨hplain, hsort⟩ := Expr.standsFor_int .start m
  refine ⟨.unary .start .neg (.int .start m), ⟨?_, fun e he => .inr ?_⟩, ?_⟩
  · exact .noLoop trivial (by simp) rfl (by simp [Expr.parts, hplain])
  · cases e <;> simp only [Expr.bare, reduceCtorEq, Expr.unary.injEq, true_and] at he
    obtain ⟨rfl, hoperand⟩ := he
    obtain ⟨q, rfl⟩ := hsort _ (by rw [hoperand, Expr.bare])
    exact ⟨_, q, m, hm, rfl⟩
  · rw [Expr.kinds, Expr.kinds]
    rfl

theorem spelled_list {items : List Datum} {own : List (List Token.Kind)}
    (h : List.Forall₂ (Spelled levels) items own) : (Datum.list items).Spelled (levels + 1)
      (.symbol .leftBracket :: (separated own ++ [.symbol .rightBracket])) := by
  obtain ⟨es, hes, rfl⟩ := exists_map_of_forall₂ h
  refine ⟨.list .start es, ⟨.noLoop trivial (by simp) rfl fun e he => ?_, fun e he => ?_⟩, ?_⟩
  · obtain ⟨d, -, hd⟩ := exists_of_forall₂ hes e he
    exact hd.plain
  · cases e <;> simp only [Expr.bare, reduceCtorEq, Expr.list.injEq, true_and] at he
    exact ⟨_, _, rfl, forall₂_of_map_eq (fun d e hd => hd.sort) hes he⟩
  · simp [Expr.kinds]

theorem spelled_dict {entries : List (String × Datum)} {own : List (List Token.Kind)}
    (h : List.Forall₂ (SpelledEntry levels) entries own) : (Datum.dict entries).Spelled (levels + 1)
      (.symbol .leftBrace :: (separated own ++ [.symbol .rightBrace])) := by
  have hentry (d : String × Datum) (kinds : List Token.Kind)
      (h : SpelledEntry levels d kinds) :
      ∃ entry : DictEntry, (entry.key.StandsFor (fun e => ∃ p, e = .str p d.1) ∧
        entry.value.StandsFor (d.2.Written levels)) ∧ kinds = entry.kinds true := by
    obtain ⟨_, ⟨e, he, rfl⟩, rfl⟩ := h
    refine ⟨⟨.str .start d.1, e⟩, ⟨Expr.standsFor_str .start d.1, he⟩, ?_⟩
    simp [DictEntry.kinds, Expr.kinds]
  obtain ⟨es, hes, rfl⟩ := exists_map_of_forall₂ (h.imp hentry)
  have hplain (entry) (h : entry ∈ es) : entry.key.Plain ∧ entry.value.Plain := by
    obtain ⟨d, -, hkey, hvalue⟩ := exists_of_forall₂ hes entry h
    exact ⟨hkey.plain, hvalue.plain⟩
  refine ⟨.dict .start es, ⟨.noLoop trivial (by simp) rfl ?_, fun e he => ?_⟩, ?_⟩
  · simp only [Expr.parts, List.mem_append, List.mem_map]
    rintro _ (⟨entry, h, rfl⟩ | ⟨entry, h, rfl⟩)
    · exact (hplain entry h).1
    · exact (hplain entry h).2
  · cases e <;> simp only [Expr.bare, reduceCtorEq, Expr.dict.injEq, true_and] at he
    refine ⟨_, _, rfl, forall₂_of_map_eq (fun d entry hd entry' he => ?_) hes he⟩
    obtain ⟨key, value⟩ := entry
    obtain ⟨key', value'⟩ := entry'
    simp only [DictEntry.bare, DictEntry.mk.injEq] at he
    exact ⟨hd.1.sort _ he.1, hd.2.sort _ he.2⟩
  · simp [Expr.kinds]

end Datum

namespace Heap

theorem toList_render_list (h : Heap) (levels : Nat) (quote : Bool) (r : ListRef) :
    (h.render (levels + 1) quote (.list r)).toList =
      '[' :: (joined ((h.list r).toList.map fun v => (h.render levels true v).toList) ++ [']']) := by
  rw [render]
  simp only [String.toList_append, String.toList_intercalate, List.map_map]
  change ['['] ++ [',', ' '].intercalate _ ++ [']'] = _
  rw [intercalate_eq_joined]
  rfl

theorem toList_render_dict (h : Heap) (levels : Nat) (quote : Bool) (r : DictRef) :
    (h.render (levels + 1) quote (.dict r)).toList =
      '\x7b' :: (joined ((h.dict r).entries.map fun e =>
        (quoted e.1).toList ++ ':' :: ' ' :: (h.render levels true e.2).toList) ++ ['\x7d']) := by
  rw [render]
  simp only [String.toList_append, String.toList_intercalate, List.map_map]
  change ['\x7b'] ++ [',', ' '].intercalate _ ++ ['\x7d'] = _
  rw [intercalate_eq_joined]
  have hentry (e : String × Value) : (quoted e.1 ++ ": " ++ h.render levels true e.2).toList =
      (quoted e.1).toList ++ ':' :: ' ' :: (h.render levels true e.2).toList := by
    rw [String.toList_append, String.toList_append, List.append_assoc]
    rfl
  simp only [Function.comp_def, hentry, List.cons_append, List.nil_append]

/-- The written form of a value spells the data that the value stands for. -/
theorem spelledAs_render {h : Heap} : ∀ {levels : Nat} {v : Value} {d : Datum},
    h.datum? levels v = some d → SpelledAs (h.render levels true v).toList (d.Spelled levels)
  | 0, _, _, hd => nomatch hd
  | levels + 1, v, d, hd => by
    cases v with
    | none =>
      cases hd
      exact (spelledAs_word .none_).imp fun _ hkinds => hkinds ▸ Datum.spelled_none
    | bool b =>
      cases hd
      cases b with
      | true => exact (spelledAs_word .true_).imp fun _ hkinds => hkinds ▸ Datum.spelled_bool true
      | false => exact (spelledAs_word .false_).imp fun _ hkinds => hkinds ▸ Datum.spelled_bool false
    | int n =>
      unfold datum? at hd
      dsimp only at hd
      split at hd
      next hn =>
        cases hd
        refine (spelledAs_int n hn).imp ?_
        rintro _ (rfl | ⟨m, hm, rfl⟩)
        · exact Datum.spelled_int
        · exact Datum.spelled_negative hm
      · cases hd
    | str s =>
      cases hd
      exact fun _ _ _ hspells =>
        ⟨[.str s], ⟨.str .start s, Expr.standsFor_str .start s, by simp [Expr.kinds]⟩,
          spells_quoted s hspells⟩
    | list r =>
      obtain ⟨items, rfl, hitems⟩ := datum?_list_iff.1 hd
      have hspelled : List.Forall₂ (fun text d => SpelledAs text (d.Spelled levels))
          ((h.list r).toList.map fun v => (h.render levels true v).toList) items :=
        List.forall₂_map_left_iff.2 (hitems.imp fun v d hv => spelledAs_render hv)
      rw [toList_render_list]
      refine (spelledAs_brackets ⟨rfl, by decide, fun _ => rfl⟩ ⟨rfl, by decide, fun _ => rfl⟩
        (by simp [Closes]) hspelled).imp ?_
      rintro _ ⟨own, hown, rfl⟩
      exact Datum.spelled_list hown
    | dict r =>
      obtain ⟨entries, rfl, hentries⟩ := datum?_dict_iff.1 hd
      have hspelled : List.Forall₂ (fun text d => SpelledAs text (Datum.SpelledEntry levels d))
          ((h.dict r).entries.map fun e =>
            (quoted e.1).toList ++ ':' :: ' ' :: (h.render levels true e.2).toList) entries := by
        refine List.forall₂_map_left_iff.2 (hentries.imp fun e d hv => ?_)
        rw [hv.1]
        exact spelledAs_entry d.1 (spelledAs_render hv.2)
      rw [toList_render_dict]
      refine (spelledAs_brackets ⟨rfl, by decide, fun _ => rfl⟩ ⟨rfl, by decide, fun _ => rfl⟩
        (by simp [Closes]) hspelled).imp ?_
      rintro _ ⟨own, hown, rfl⟩
      exact Datum.spelled_dict hown
    | float | function | error => cases hd

end Heap

namespace Grammar

open Parse

variable {bound : Nat} {ts rest : List Token} {e : Expr}

/-- The tokens of an expression are read as one that stands for the same, if what comes behind
them does not go on with it. -/
theorem expr_of_standsFor {P : Expr → Prop} (h : e.StandsFor P)
    (hts : ts.map Token.kind = e.kinds true) (hbound : 20 * ts.length ≤ bound)
    (rest : List Token) (hrest : rest ≠ []) (hend : (Token.front rest).kind.ends .lambda = true) :
    ∃ e, P e ∧ expr bound (ts ++ rest) = .ok e rest := by
  have hlength : 20 * (e.kinds true).length ≤ bound := by rwa [← hts, List.length_map]
  obtain ⟨e', he', hread⟩ := h.plain.readable.legible.reads hlength ts rest hts hrest hend
  exact ⟨e', h.sort e' he', hread⟩

/-! ### Assignments -/

theorem exprList_of_expr (h : expr bound ts = .ok e rest)
    (hcomma : (Token.front rest).kind.same (.symbol .comma) = false) :
    exprList bound ts = .ok e rest := by
  unfold exprList
  rw [bind_of_ok h, bind_check, hcomma]
  rfl

theorem exprOrAssign_of_name (x : String) (p q : Position) (hbound : 20 ≤ bound) (hts : ts ≠ [])
    (hvalue : exprList bound ts = .ok e rest) :
    exprOrAssign bound (⟨.name x, p⟩ :: ⟨.symbol .assign, q⟩ :: ts) =
      .ok (.assign p (.name x) e) rest := by
  have hstands : (Expr.name p x).StandsFor fun e => ∃ p, e = .name p x := by
    refine ⟨.noLoop trivial (by simp) rfl (by simp [Expr.parts]), fun e he => ?_⟩
    cases e <;> simp only [Expr.bare, reduceCtorEq, Expr.name.injEq, true_and] at he
    exact ⟨_, by rw [he]⟩
  have hkinds : [Token.mk (.name x) p].map Token.kind = (Expr.name p x).kinds true := by
    simp [Expr.kinds]
  obtain ⟨-, ⟨p', rfl⟩, hname⟩ := expr_of_standsFor hstands hkinds hbound
    (⟨.symbol .assign, q⟩ :: ts) (by simp) rfl
  rw [List.singleton_append] at hname
  have hsign : (Token.front (⟨.symbol .assign, q⟩ :: ts)).kind.same (.symbol .assign) = true := rfl
  have htarget : target (.name p' x) (⟨.symbol .assign, q⟩ :: ts) =
      .ok (.name x) (⟨.symbol .assign, q⟩ :: ts) := by
    rw [target, asTarget]
    rfl
  unfold exprOrAssign
  rw [bind_here, bind_of_ok (exprList_of_expr hname rfl), bind_peek, if_pos hsign, bind_of_ok htarget,
    bind_advance, Token.behind_cons hts, bind_of_ok hvalue]
  rfl

theorem stmt_of_assign (x : String) (p q r : Position) (hne : rest ≠ [])
    (hassign : exprOrAssign bound (⟨.name x, p⟩ :: ⟨.symbol .assign, q⟩ :: ts) =
      .ok (.assign p (.name x) e) (⟨.newline, r⟩ :: rest)) :
    stmt (bound + 1) .top (⟨.name x, p⟩ :: ⟨.symbol .assign, q⟩ :: ts) =
      .ok (.assign p (.name x) e) rest := by
  have hsimple : simpleStmt bound .top (⟨.name x, p⟩ :: ⟨.symbol .assign, q⟩ :: ts) =
      .ok (.assign p (.name x) e) (⟨.newline, r⟩ :: rest) := hassign
  have hend : expectLineEnd (⟨.newline, r⟩ :: rest) = .ok () rest := by
    unfold expectLineEnd
    rw [Token.behind_cons hne]
    rfl
  rw [stmt, bind_peek]
  change (simpleStmt bound .top >>= _) _ = _
  rw [bind_of_ok hsimple, bind_of_ok hend]
  rfl

theorem program_assign {levels : Nat} {d : Datum} (h : d.Spelled levels (ts.map Token.kind))
    (x : String) (p q r r' : Position) : ∃ e, d.Written levels e ∧
    program (⟨.name x, p⟩ :: ⟨.symbol .assign, q⟩ :: (ts ++ [⟨.newline, r⟩, ⟨.eof, r'⟩])) =
      .ok [.assign p (.name x) e] := by
  have hle := le_bound (⟨.name x, p⟩ :: ⟨.symbol .assign, q⟩ :: (ts ++ [⟨.newline, r⟩, ⟨.eof, r'⟩]))
  simp only [List.length_cons, List.length_append, List.length_nil] at hle
  obtain ⟨b, hb⟩ := Nat.exists_eq_add_of_lt (Nat.lt_of_lt_of_le (by omega : 100 < _) hle)
  obtain ⟨tree, hstands, hkinds⟩ := h
  obtain ⟨e, he, hvalue⟩ := expr_of_standsFor hstands hkinds (by omega : 20 * ts.length ≤ 100 + b)
    [⟨.newline, r⟩, ⟨.eof, r'⟩] (by simp) rfl
  have hassign := exprOrAssign_of_name x p q (by omega) (by simp) (exprList_of_expr hvalue rfl)
  have hstmt := stmt_of_assign x p q r (by simp) hassign
  rw [← hb] at hstmt
  exact ⟨e, he, program_eq_ok_iff.2 ⟨1, by simp, .statement rfl hstmt (.eof rfl)⟩⟩

end Grammar

end Scripting
