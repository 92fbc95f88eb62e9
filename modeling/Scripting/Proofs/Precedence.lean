/-
# The precedence table and the grammar

The reader of expressions undoes the precedence table: an expression that is written with brackets
only where its place asks for a tighter one is read back, up to positions, wherever a token comes
next that does not go on with it (`expr_of_kinds`). One thing is written with brackets beyond the
table, an attribute that is called. Without them the tokens are those of the call of a method
(`member_call_misread`).

At its own rank an expression is read by what its operator is; the readers of looser ranks hand it
down, and at a tighter place it stands in brackets, where any rank is read again
(`Expr.admitted_of_own`).
-/
import Scripting.Proofs.Precedence.Displays

namespace Scripting

open Grammar
open Parse (Leads Reads)

/-! ### Every rank -/

theorem Rank.induction_down {P : Rank → Prop} (top : P .applied)
    (step : ∀ r, r ≠ .applied → P r.next → P r) : ∀ r, P r := by
  have hpower := step .power nofun top
  have hsign := step .sign nofun hpower
  have hproduct := step .product nofun hsign
  have hsum := step .sum nofun hproduct
  have hcomparison := step .comparison nofun hsum
  have hnot := step .not nofun hcomparison
  have hand := step .and nofun hnot
  have hor := step .or nofun hand
  have hconditional := step .conditional nofun hor
  have hlambda := step .lambda nofun hconditional
  intro r
  cases r <;> assumption

theorem Rank.lt_next_iff {r own : Rank} (hr : r ≠ .applied) (hown : own ≠ r) :
    own < r.next ↔ own < r := by
  cases r <;> cases own <;> first | exact absurd rfl hr | exact absurd rfl hown | decide

theorem Rank.eq_applied_of_le {r : Rank} (h : Rank.applied ≤ r) : r = .applied := by
  cases r <;> first | rfl | exact absurd h (by decide)

namespace Expr

/-- What may come behind an expression at a place: what the reader of the place goes on
with, but nothing that a tighter one takes. -/
def Behind (r : Rank) (e : Expr) (k : Token.Kind) : Prop :=
  match r with
  | .or | .and | .comparison | .sum | .product => k.ends r.next = true
  | .applied => e.Follow k
  | _ => k.ends r = true

/-- The reader of a rank comes to the expression that stands at a place of the rank. -/
def Admitted (e : Expr) (r : Rank) : Prop := r.Admits e (e.kindsAt true r) (e.Behind r)

variable {e : Expr} {r : Rank}

theorem behind_of_ends {k : Token.Kind} (h : k.ends r = true) : e.Behind r k := by
  cases r with
  | or | and | comparison | sum | product => exact Token.Kind.ends_of_le h (by decide)
  | applied =>
    refine ⟨?_, fun _ => Token.Kind.same_eq_false h rfl⟩
    cases k <;> first | rfl | cases h
  | _ => exact h

theorem kindsAt_rank (apart : Bool) (e : Expr) : e.kindsAt apart e.rank = e.kinds apart :=
  if_neg (Nat.lt_irrefl _)

theorem kindsAt_lambda (apart : Bool) (e : Expr) : e.kindsAt apart .lambda = e.kinds apart := by
  unfold kindsAt Rank.fit
  exact if_neg (Nat.not_lt_zero e.rank.depth)

/-- At a place that is not of its own rank an expression is written as at a tighter one. -/
theorem kindsAt_next (hr : r ≠ .applied) (hown : e.rank ≠ r) (apart : Bool) :
    e.kindsAt apart r = e.kindsAt apart r.next := by
  unfold kindsAt Rank.fit
  simp only [Rank.lt_next_iff hr hown]

theorem Admitted.accepts (h : e.Admitted r) (hplain : e.Plain) : r.Accepts e (e.kindsAt true r) :=
  Rank.Admits.accepts h (fun _ hk => behind_of_ends hk)
    (List.length_pos_iff.1 (hplain.opening_kindsAt true r).length_pos)

theorem admitted_of_next (hplain : e.Plain) (hr : r ≠ .applied) (hown : e.rank ≠ r)
    (h : e.Admitted r.next) : e.Admitted r := by
  have haccepts := h.accepts hplain
  have hopen := hplain.opening_kindsAt true r.next
  unfold Admitted
  rw [kindsAt_next hr hown]
  cases r with
  | lambda => exact (Rank.accepts_lambda haccepts hopen).admits fun _ _ => rfl
  | conditional => exact (Rank.accepts_conditional haccepts hopen.length_pos).admits fun _ _ => rfl
  | not => exact (Rank.accepts_not haccepts hopen).admits fun _ _ => rfl
  | sign => exact (Rank.accepts_sign haccepts hopen).admits fun _ _ => rfl
  | power => exact (Rank.accepts_power haccepts hopen.length_pos).admits fun _ _ => rfl
  | or => exact Level.or.admits_operand haccepts hopen.length_pos
  | and => exact Level.and.admits_operand haccepts hopen.length_pos
  | comparison => exact Level.comparison.admits_operand haccepts hopen.length_pos
  | sum => exact Level.sum.admits_operand haccepts hopen.length_pos
  | product => exact Level.product.admits_operand haccepts hopen.length_pos
  | applied => exact absurd rfl hr

theorem Admitted.legible (h : e.Admitted .lambda) (hplain : e.Plain) : e.Legible := by
  have haccepts := h.accepts hplain
  have hopen := hplain.opening_kindsAt true .lambda
  rw [kindsAt_lambda] at haccepts hopen
  exact ⟨haccepts, hopen⟩

/-- An expression that is read at a place of its own rank is read at all places. -/
theorem admitted_of_own (hplain : e.Plain) (hown : e.Admitted e.rank) : ∀ r, e.Admitted r := by
  have hloose : ∀ r : Rank, r ≤ e.rank → e.Admitted r := by
    refine Rank.induction_down (fun hle => ?_) fun r hr ih hle => ?_
    · exact Rank.eq_applied_of_le hle ▸ hown
    by_cases heq : e.rank = r
    · exact heq ▸ hown
    · have hnext : ¬ e.rank < r.next := mt (Rank.lt_next_iff hr heq).1 (Nat.not_lt_of_le hle)
      exact admitted_of_next hplain hr heq (ih (Nat.le_of_not_lt hnext))
  have hlegible := (hloose .lambda (Nat.zero_le _)).legible hplain
  have htight : ∀ r : Rank, e.rank < r → e.Admitted r := by
    refine Rank.induction_down (fun hlt => ?_) fun r hr ih hlt => ?_
    · unfold Admitted kindsAt Rank.fit
      rw [if_pos hlt]
      exact (Rank.admits_bracketed hlegible).imp fun k hk => hk.1
    · have hne : e.rank ≠ r := fun heq => Nat.lt_irrefl r.depth (heq ▸ hlt)
      exact admitted_of_next hplain hr hne (ih ((Rank.lt_next_iff hr hne).2 hlt))
  intro r
  rcases Nat.lt_or_ge e.rank.depth r.depth with hlt | hle
  · exact htight r hlt
  · exact hloose r hle

/-! ### Its own rank -/

theorem admitted_applied (hrank : e.rank = .applied)
    (h : Rank.applied.Admits e (e.kinds true) fun k => k.isText = false) : e.Admitted e.rank := by
  unfold Admitted
  rw [kindsAt_rank, hrank]
  exact h.imp fun _ hk => hk.1

theorem admitted_closed (hrank : e.rank = r) (hgoOn : ∀ n e', r.goOn n e' = pure e')
    (hbehind : e.Behind r = fun k => k.ends r = true) (h : r.Accepts e (e.kinds true)) :
    e.Admitted e.rank := by
  unfold Admitted
  rw [kindsAt_rank, hrank, hbehind]
  exact h.admits hgoOn

theorem behind_level (level : Level) :
    e.Behind level.rank = fun k => k.ends level.rank.next = true := by
  cases level <;> rfl

theorem admitted_join {level : Level} {c : Connective} {left right : Expr} {ksop : List Token.Kind}
    (hrank : e.rank = level.rank) (hbare : (c.join left right).bare = e.bare)
    (hkinds : e.kinds true =
      left.kindsAt true level.rank ++ (ksop ++ right.kindsAt true level.rank.next))
    (hop : level.Writes c ksop) (hleft : left.Admitted level.rank)
    (hright : level.rank.next.Accepts right (right.kindsAt true level.rank.next)) :
    e.Admitted e.rank := by
  unfold Admitted at hleft ⊢
  rw [behind_level] at hleft
  rw [kindsAt_rank, hrank, behind_level, hkinds]
  exact (Level.admits_join hop hleft hright).congr hbare

/-- An expression that is read at every place. -/
structure Readable (e : Expr) : Prop where
  plain : e.Plain
  admitted : ∀ r, e.Admitted r

theorem Readable.accepts (h : e.Readable) (r : Rank) : r.Accepts e (e.kindsAt true r) :=
  (h.admitted r).accepts h.plain

theorem Readable.length_pos (h : e.Readable) (r : Rank) : 0 < (e.kindsAt true r).length :=
  (h.plain.opening_kindsAt true r).length_pos

theorem Readable.legible (h : e.Readable) : e.Legible := (h.admitted .lambda).legible h.plain

/-! ### One case per constructor -/

variable (p : Position)

theorem admitted_binary {op : BinaryOp} {left right : Expr} (hleft : left.Readable)
    (hright : right.Readable) : (Expr.binary p op left right).Admitted op.rank := by
  by_cases hop : op = .pow
  · subst hop
    refine admitted_closed rfl (fun _ _ => rfl) rfl ?_
    rw [Expr.kinds]
    exact Rank.accepts_pow p (hleft.accepts .applied) (hright.accepts .sign)
  obtain ⟨level, hrank, hleftRank, hrightRank, hwrites⟩ := BinaryOp.writes hop
  refine admitted_join hrank ?_ ?_ hwrites (hleft.admitted _) (hright.accepts _)
  · simp only [Connective.join, Expr.bare]
  · rw [Expr.kinds, hleftRank, hrightRank]
    rfl

theorem admitted_logic {op : LogicOp} {left right : Expr} (hleft : left.Readable)
    (hright : right.Readable) : (Expr.logic p op left right).Admitted op.rank := by
  obtain ⟨level, hrank, hwrites⟩ := op.writes
  refine admitted_join hrank ?_ ?_ hwrites (hleft.admitted _) (hright.accepts _)
  · simp only [Connective.join, Expr.bare]
  · rw [Expr.kinds, hrank]
    rfl

theorem admitted_unary {op : UnaryOp} {operand : Expr} (h : operand.Readable) :
    (Expr.unary p op operand).Admitted op.rank := by
  by_cases hop : op = .not
  · subst hop
    refine admitted_closed rfl (fun _ _ => rfl) rfl ?_
    rw [Expr.kinds]
    exact Rank.accepts_negation p (h.accepts .not)
  have hrank : op.rank = .sign := by cases op <;> first | rfl | exact absurd rfl hop
  refine admitted_closed hrank (fun _ _ => rfl) rfl ?_
  rw [Expr.kinds, hrank]
  exact Rank.accepts_signed p hop (h.accepts .sign)

theorem admitted_conditional {condition thenValue elseValue : Expr} (hcondition : condition.Readable)
    (hthen : thenValue.Readable) (helse : elseValue.Readable) :
    (Expr.conditional p condition thenValue elseValue).Admitted .conditional := by
  refine admitted_closed rfl (fun _ _ => rfl) rfl ?_
  rw [Expr.kinds]
  exact Rank.accepts_choice p (hcondition.accepts .or) (hthen.accepts .or) helse.legible.accepts

theorem admitted_lambda {params : List Param} {body : Expr} (hlisted : Param.Listed params)
    (hparams : ∀ q ∈ params, ∀ e ∈ q.default, e.Readable) (hbody : body.Readable) :
    (Expr.lambda p params body).Admitted .lambda :=
  admitted_closed rfl (fun _ _ => rfl) rfl
    (Rank.accepts_function hlisted (fun q hq e he => (hparams q hq e he).legible) hbody.legible p)

theorem admitted_member {object : Expr} (h : object.Readable) (name : String) :
    (Expr.member p object name).Admitted .applied := by
  change Rank.applied.Admits _ ((Expr.member p object name).kindsAt true (Expr.member p object name).rank) _
  rw [kindsAt_rank, Expr.kinds]
  refine Rank.admits_trailer (h.admitted .applied) (h.length_pos .applied) ?_ (by simp)
    fun n head hhead hn => trailers_member hhead p name n ?_
  · exact ⟨rfl, fun _ => rfl⟩
  · simp only [List.length_cons] at hn
    omega

theorem admitted_index {container key : Expr} (hcontainer : container.Readable)
    (hkey : key.Readable) : (Expr.index p container key).Admitted .applied := by
  refine admitted_applied rfl ?_
  rw [Expr.kinds]
  refine Rank.admits_trailer (hcontainer.admitted .applied) (hcontainer.length_pos .applied)
    ⟨rfl, fun _ => rfl⟩ (by simp) fun n head hhead hn => trailers_subscript ?_
  simp only [List.length_cons, List.length_append] at hn
  exact subscript_index hhead hkey.legible p (by omega) _

theorem admitted_slice {container : Expr} {start stop step : Option Expr}
    (hcontainer : container.Readable) (hstart : ∀ e ∈ start, e.Readable)
    (hstop : ∀ e ∈ stop, e.Readable) (hstep : ∀ e ∈ step, e.Readable) :
    (Expr.slice p container start stop step).Admitted .applied := by
  refine admitted_applied rfl ?_
  rw [Expr.kinds]
  refine Rank.admits_trailer (hcontainer.admitted .applied) (hcontainer.length_pos .applied)
    ⟨rfl, fun _ => rfl⟩ (by simp) fun n head hhead hn => trailers_subscript ?_
  simp only [List.length_cons, List.length_append] at hn
  exact subscript_slice hhead (fun e he => (hstart e he).legible) (fun e he => (hstop e he).legible)
    (fun e he => (hstep e he).legible) p (by omega) _

theorem admits_callee (h : e.Readable) :
    Rank.applied.Admits e
      (if true && e.isMember then bracketed (e.kinds true) else e.kindsAt true .applied)
      fun k => k.isText = false := by
  split
  · exact Rank.admits_bracketed h.legible
  · rename_i hmember
    exact Rank.Admits.imp (h.admitted .applied) fun k hk =>
      ⟨hk, fun hcalled => absurd hcalled hmember⟩

section

variable {args : List Expr} {keywords : List Keyword} (hargs : ∀ a ∈ args, a.Readable)
  (hkeywords : ∀ k ∈ keywords, k.value.Readable) (hdistinct : (keywords.map Keyword.name).Nodup)

include hargs hkeywords hdistinct

theorem admitted_call {callee : Expr} (hcallee : callee.Readable) :
    (Expr.call p callee args keywords).Admitted .applied := by
  refine admitted_applied rfl ?_
  rw [Expr.kinds]
  refine Rank.admits_trailer (admits_callee hcallee) ?_ rfl (by simp [bracketed])
    fun n head hhead hn => trailers_call (fun a ha => (hargs a ha).legible)
      (fun k hk => (hkeywords k hk).legible) hdistinct hhead p hn
  split
  · exact Nat.succ_pos _
  · exact hcallee.length_pos .applied

theorem admitted_method {object : Expr} (hobject : object.Readable) (name : String) :
    (Expr.method p object name args keywords).Admitted .applied := by
  refine admitted_applied rfl ?_
  rw [Expr.kinds]
  refine Rank.admits_trailer (hobject.admitted .applied) (hobject.length_pos .applied)
    ⟨rfl, fun _ => rfl⟩ (by simp) fun n head hhead hn =>
      trailers_method (fun a ha => (hargs a ha).legible) (fun k hk => (hkeywords k hk).legible)
        hdistinct hhead p ?_ name
  have hlength : 20 * ((bracketed (argumentKinds args keywords)).length + 2) ≤ n := hn
  omega

end

theorem admitted_listOf {item : Expr} {c : Clause} (htarget : c.target.Spread)
    (hitem : item.Readable) (hclause : ∀ part ∈ c.parts, part.Readable) :
    (Expr.listOf p item c).Admitted .applied :=
  admitted_applied rfl (Rank.admits_listOf htarget
    ((hclause c.iterable (by simp [Clause.parts])).accepts .or)
    (fun e he => (hclause e (by simp [Clause.parts, Option.mem_def.1 he])).accepts .or)
    hitem.legible p)

theorem admitted_dictOf {key value : Expr} {c : Clause} (htarget : c.target.Spread)
    (hkey : key.Readable) (hvalue : value.Readable) (hclause : ∀ part ∈ c.parts, part.Readable) :
    (Expr.dictOf p key value c).Admitted .applied :=
  admitted_applied rfl (Rank.admits_dictOf htarget
    ((hclause c.iterable (by simp [Clause.parts])).accepts .or)
    (fun e he => (hclause e (by simp [Clause.parts, Option.mem_def.1 he])).accepts .or)
    hkey.legible hvalue.legible p)

theorem admitted_token {k : Token.Kind} (make : Position → Expr) (hrank : e.rank = .applied)
    (hkinds : e.kinds true = [k]) (hbare : ∀ p, (make p).bare = e.bare)
    (h : ∀ n p ts, primary (n + 1) (⟨k, p⟩ :: ts) = .ok (make p) (Token.behind (⟨k, p⟩ :: ts))) :
    e.Admitted e.rank := by
  refine admitted_applied hrank ?_
  rw [hkinds]
  exact Rank.admits_token make hbare h

/-- An expression is read at a place of its own rank, if its parts are read at theirs. -/
theorem Plain.admitted_own (h : e.Plain) (hpart : ∀ part ∈ e.parts, part.Readable) :
    e.Admitted e.rank := by
  obtain ⟨rule, noFields, spread, -⟩ := h
  cases e with
  | int p n =>
    exact admitted_token (.int · n) rfl (by rw [Expr.kinds]) (fun _ => by simp only [Expr.bare])
      fun _ _ _ => by rw [primary]; rfl
  | float p x =>
    exact admitted_token (.float · x) rfl (by rw [Expr.kinds]) (fun _ => by simp only [Expr.bare])
      fun _ _ _ => by rw [primary]; rfl
  | bool p b =>
    exact admitted_token (.bool · b) rfl (by rw [Expr.kinds]) (fun _ => by simp only [Expr.bare])
      fun _ _ _ => by rw [primary]; cases b <;> rfl
  | none p =>
    exact admitted_token .none rfl (by rw [Expr.kinds]) (fun _ => by simp only [Expr.bare])
      fun _ _ _ => by rw [primary]; rfl
  | name p x =>
    exact admitted_token (.name · x) rfl (by rw [Expr.kinds]) (fun _ => by simp only [Expr.bare])
      fun _ _ _ => by rw [primary]; rfl
  | str p s =>
    refine admitted_applied rfl ?_
    rw [Expr.kinds]
    exact Rank.admits_text p s
  | binary p op left right =>
    exact admitted_binary p (hpart left (by simp [parts])) (hpart right (by simp [parts]))
  | logic p op left right =>
    exact admitted_logic p (hpart left (by simp [parts])) (hpart right (by simp [parts]))
  | unary p op operand => exact admitted_unary p (hpart operand (by simp [parts]))
  | conditional p condition thenValue elseValue =>
    exact admitted_conditional p (hpart condition (by simp [parts]))
      (hpart thenValue (by simp [parts])) (hpart elseValue (by simp [parts]))
  | call p callee args keywords =>
    refine admitted_call p (fun a ha => hpart a (by simp [parts, ha])) (fun k hk => ?_) rule
      (hpart callee (by simp [parts]))
    exact hpart k.value (List.mem_append_right _ (List.mem_map_of_mem hk))
  | method p object name args keywords =>
    refine admitted_method p (fun a ha => hpart a (by simp [parts, ha])) (fun k hk => ?_) rule
      (hpart object (by simp [parts])) name
    exact hpart k.value (List.mem_append_right _ (List.mem_map_of_mem hk))
  | index p container key =>
    exact admitted_index p (hpart container (by simp [parts])) (hpart key (by simp [parts]))
  | slice p container start stop step =>
    exact admitted_slice p (hpart container (by simp [parts]))
      (fun e he => hpart e (by simp [parts, Option.mem_def.1 he]))
      (fun e he => hpart e (by simp [parts, Option.mem_def.1 he]))
      (fun e he => hpart e (by simp [parts, Option.mem_def.1 he]))
  | member p object name => exact admitted_member p (hpart object (by simp [parts])) name
  | list p items =>
    exact admitted_applied rfl (Rank.admits_list (fun a ha => (hpart a ha).legible) p)
  | dict p entries =>
    refine admitted_applied rfl (Rank.admits_dict (fun entry hentry => ⟨?_, ?_⟩) p)
    · exact (hpart _ (List.mem_append_left _ (List.mem_map_of_mem hentry))).legible
    · exact (hpart _ (List.mem_append_right _ (List.mem_map_of_mem hentry))).legible
  | listOf p item c =>
    exact admitted_listOf p (spread c rfl) (hpart item (by simp [parts]))
      fun part hmem => hpart part (by simp [parts, hmem])
  | dictOf p key value c =>
    exact admitted_dictOf p (spread c rfl) (hpart key (by simp [parts]))
      (hpart value (by simp [parts])) fun part hmem => hpart part (by simp [parts, hmem])
  | lambda p params body =>
    refine admitted_lambda p rule (fun q hq e he => hpart e ?_) (hpart body (by simp [parts]))
    exact .tail _ (List.mem_filterMap.2 ⟨q, hq, he⟩)
  | fstring p parts => exact absurd rfl (noFields p parts)

/-- Every expression is read at every place. -/
theorem Plain.readable (h : e.Plain) : e.Readable := by
  induction h with
  | @intro e rule noFields spread inside ih =>
    have hplain : e.Plain := .intro rule noFields spread inside
    exact ⟨hplain, admitted_of_own hplain (hplain.admitted_own ih)⟩

end Expr

/-! ### Reading back -/

/-- What is written by the precedence table, with a called attribute in brackets, is read
back up to positions. -/
theorem expr_of_kinds {e : Expr} (he : e.Plain) {ts rest : List Token} {bound : Nat}
    (hts : ts.map Token.kind = e.kinds true) (hrest : rest ≠ [])
    (hend : (Token.front rest).kind.tie? = none) (hbound : Grammar.bound ts ≤ bound) :
    ∃ e', Grammar.expr bound (ts ++ rest) = .ok e' rest ∧ e'.bare = e.bare := by
  have hlength : 20 * (e.kinds true).length ≤ bound := by
    have := le_bound ts
    rw [← hts, List.length_map]
    omega
  have hends : (Token.front rest).kind.ends .lambda = true := by
    unfold Token.Kind.ends
    rw [hend]
    rfl
  obtain ⟨e', he', hread⟩ := he.readable.legible.reads hlength ts rest hts hrest hends
  exact ⟨e', hread, he'⟩

/-- Tokens of these kinds, all at one place. -/
def placed (ks : List Token.Kind) : List Token := ks.map (Token.mk · .start)

theorem map_kind_placed (ks : List Token.Kind) : (placed ks).map Token.kind = ks := by
  simp [placed, Function.comp_def]

theorem Expr.Plain.noLoop {e : Expr} (rule : e.Admissible)
    (noFields : ∀ p parts, e ≠ .fstring p parts) (hclause : e.clause? = .none)
    (inside : ∀ part ∈ e.parts, part.Plain) : e.Plain :=
  .intro rule noFields (by simp [hclause]) inside

/-- `(x.f)(g=lambda y: y) if not a in b else [i ** -2 for i, (j, k) in c or d]` -/
def writtenChoice : Expr :=
  .conditional .start
    (.unary .start .not (.binary .start .isIn (.name .start "a") (.name .start "b")))
    (.call .start (.member .start (.name .start "x") "f") []
      [⟨"g", .lambda .start [⟨"y", .start, none⟩] (.name .start "y")⟩])
    (.listOf .start (.binary .start .pow (.name .start "i") (.unary .start .neg (.int .start 2)))
      ⟨.group [.name "i", .group [.name "j", .name "k"]],
        .logic .start .or (.name .start "c") (.name .start "d"), none⟩)

theorem writtenChoice_plain : writtenChoice.Plain := by
  have hname (x : String) : (Expr.name .start x).Plain :=
    .noLoop trivial (by simp) rfl (by simp [Expr.parts])
  have hint : (Expr.int .start 2).Plain := .noLoop trivial (by simp) rfl (by simp [Expr.parts])
  have hisIn := Expr.Plain.noLoop (e := .binary .start .isIn _ _) trivial (by simp) rfl
    (List.forall_mem_cons.2 ⟨hname "a", List.forall_mem_singleton.2 (hname "b")⟩)
  have hnot := Expr.Plain.noLoop (e := .unary .start .not _) trivial (by simp) rfl
    (List.forall_mem_singleton.2 hisIn)
  have hmember := Expr.Plain.noLoop (e := .member .start _ "f") trivial (by simp) rfl
    (List.forall_mem_singleton.2 (hname "x"))
  have hlambda := Expr.Plain.noLoop (e := .lambda .start [⟨"y", .start, none⟩] _)
    ⟨by decide, List.pairwise_singleton _ _⟩ (by simp) rfl (List.forall_mem_singleton.2 (hname "y"))
  have hcall := Expr.Plain.noLoop (e := .call .start _ [] [⟨"g", _⟩]) (show ["g"].Nodup by decide)
    (by simp) rfl (List.forall_mem_cons.2 ⟨hmember, List.forall_mem_singleton.2 hlambda⟩)
  have hneg := Expr.Plain.noLoop (e := .unary .start .neg _) trivial (by simp) rfl
    (List.forall_mem_singleton.2 hint)
  have hpow := Expr.Plain.noLoop (e := .binary .start .pow _ _) trivial (by simp) rfl
    (List.forall_mem_cons.2 ⟨hname "i", List.forall_mem_singleton.2 hneg⟩)
  have hor := Expr.Plain.noLoop (e := .logic .start .or _ _) trivial (by simp) rfl
    (List.forall_mem_cons.2 ⟨hname "c", List.forall_mem_singleton.2 (hname "d")⟩)
  have hinner : (Target.group [.name "j", .name "k"]).Spread :=
    .group (Nat.le_refl 2) (by simp [Target.Spread.name])
  have htarget : (Target.group [.name "i", .group [.name "j", .name "k"]]).Spread :=
    .group (Nat.le_refl 2) (by simp [Target.Spread.name, hinner])
  have hlistOf := Expr.Plain.intro (e := .listOf .start _ ⟨_, _, none⟩) htarget.bindable (by simp)
    (by rintro c ⟨⟩; exact htarget) (List.forall_mem_cons.2 ⟨hpow, List.forall_mem_singleton.2 hor⟩)
  exact .noLoop trivial (by simp [writtenChoice]) rfl
    (List.forall_mem_cons.2 ⟨hnot, List.forall_mem_cons.2 ⟨hcall, List.forall_mem_singleton.2 hlistOf⟩⟩)

theorem expr_of_kinds_choice :
    writtenChoice.kinds true =
      [.symbol .leftParen, .name "x", .symbol .dot, .name "f", .symbol .rightParen,
       .symbol .leftParen, .name "g", .symbol .assign, .word .lambda_, .name "y", .symbol .colon,
       .name "y", .symbol .rightParen, .word .if_, .word .not_, .name "a", .word .in_, .name "b",
       .word .else_, .symbol .leftBracket, .name "i", .symbol .starStar, .symbol .minus, .int 2,
       .word .for_, .name "i", .symbol .comma, .symbol .leftParen, .name "j", .symbol .comma,
       .name "k", .symbol .rightParen, .word .in_, .name "c", .word .or_, .name "d",
       .symbol .rightBracket] ∧
    ∃ e', Grammar.expr (Grammar.bound (placed (writtenChoice.kinds true)))
        (placed (writtenChoice.kinds true) ++ [⟨.newline, .start⟩]) = .ok e' [⟨.newline, .start⟩] ∧
      e'.bare = writtenChoice.bare :=
  ⟨by cbv, expr_of_kinds writtenChoice_plain (map_kind_placed _) (by simp) rfl (Nat.le_refl _)⟩

/-- Without brackets of its own an attribute that is called is the name of a method: by the
table alone, `x.f()` writes the call of an attribute, and it is read as another tree. -/
theorem member_call_misread : ¬ ∀ e : Expr, e.Plain → ∀ (ts rest : List Token) (bound : Nat),
    ts.map Token.kind = e.kinds false → rest ≠ [] → (Token.front rest).kind.tie? = none →
    Grammar.bound ts ≤ bound →
    ∃ e', Grammar.expr bound (ts ++ rest) = .ok e' rest ∧ e'.bare = e.bare := by
  intro h
  have hname : (Expr.name .start "x").Plain := .noLoop trivial (by simp) rfl (by simp [Expr.parts])
  have hmember := Expr.Plain.noLoop (e := .member .start _ "f") trivial (by simp) rfl
    (List.forall_mem_singleton.2 hname)
  have hcall := Expr.Plain.noLoop (e := .call .start _ [] []) List.nodup_nil (by simp) rfl
    (List.forall_mem_singleton.2 hmember)
  have hkinds : (Expr.call .start (.member .start (.name .start "x") "f") [] []).kinds false =
      [.name "x", .symbol .dot, .name "f", .symbol .leftParen, .symbol .rightParen] := by
    cbv
  have hread : Grammar.expr 384 (placed [.name "x", .symbol .dot, .name "f", .symbol .leftParen,
      .symbol .rightParen] ++ [⟨.newline, .start⟩]) =
      .ok (.method .start (.name .start "x") "f" [] []) [⟨.newline, .start⟩] := rfl
  obtain ⟨e', he', hbare⟩ := h _ hcall (placed [.name "x", .symbol .dot, .name "f",
    .symbol .leftParen, .symbol .rightParen]) [⟨.newline, .start⟩] 384 hkinds.symm (by simp) rfl (by decide)
  rw [hread] at he'
  cases he'
  simp [Expr.bare] at hbare

end Scripting
