/-
# Reading operators by their ranks

At a place that asks for a rank, the reader of that rank (`Rank.reader`) takes what is written
there and leaves what comes behind it, if that begins with a token which only looser ranks take
(`Token.Kind.ends`).

Operators of one rank group from the left: the reader takes the first operand, and goes on from it
with operator after operator. So more is said of a reader than that it ends with an expression: it
comes to where it goes on from that expression (`Rank.Admits`), with most of its bound left. What
binds more tightly is handed down by the readers in between, since it begins with no token of
theirs and is followed by none (`Level.admits_operand`).
-/
import Scripting.Proofs.Grammar.Leads
import Scripting.Proofs.Precedence.Rendering

namespace Scripting

open Grammar

variable {r : Rank} {ks : List Token.Kind} {k : Token.Kind}
open Parse (Leads Reads)

/-! ### What goes on with an expression -/

namespace Token.Kind

/-- The rank of the reader that takes a token behind an expression. -/
def tie? : Token.Kind → Option Rank
  | .symbol .leftParen | .symbol .leftBracket | .symbol .dot | .str _ => some .applied
  | .symbol .starStar => some .power
  | .symbol .star | .symbol .slash | .symbol .slashSlash | .symbol .percent => some .product
  | .symbol .plus | .symbol .minus => some .sum
  | .symbol .equal | .symbol .notEqual | .symbol .less | .symbol .lessEqual | .symbol .greater
  | .symbol .greaterEqual | .word .in_ | .word .not_ => some .comparison
  | .word .and_ => some .and
  | .word .or_ => some .or
  | .word .if_ => some .conditional
  | _ => none

/-- Whether a token ends what stands at a place that asks for a rank. -/
def ends (r : Rank) (k : Token.Kind) : Bool := k.tie?.all (· < r)

theorem ends_of_le {q : Rank} (h : k.ends r = true) (hle : r ≤ q) : k.ends q = true := by
  unfold ends at h ⊢
  cases hk : k.tie? with
  | none => rfl
  | some p =>
    rw [hk] at h
    exact decide_eq_true (Nat.lt_of_lt_of_le (of_decide_eq_true h) hle)

theorem ends_of_next (hr : r = .lambda ∨ r = .sign) (h : k.ends r.next = true) :
    k.ends r = true := by
  have hne : k.tie? ≠ some r := by
    unfold tie?
    rcases hr with rfl | rfl <;> split <;> nofun
  unfold ends at h ⊢
  cases hk : k.tie? with
  | none => rfl
  | some p =>
    rw [hk] at h hne
    rcases hr with rfl | rfl <;> cases p <;> first | rfl | exact absurd rfl hne | cases h

end Token.Kind

/-! ### Readers -/

def Level.rank : Level → Rank
  | .or => .or
  | .and => .and
  | .comparison => .comparison
  | .sum => .sum
  | .product => .product

namespace Rank

def reader : Rank → Nat → Parse Expr
  | .lambda, bound => expr bound
  | .conditional, bound => Grammar.conditional bound
  | .or, bound => chain bound .or
  | .and, bound => chain bound .and
  | .not, bound => negation bound
  | .comparison, bound => chain bound .comparison
  | .sum, bound => chain bound .sum
  | .product, bound => chain bound .product
  | .sign, bound => signed bound
  | .power, bound => Grammar.power bound
  | .applied, bound => Grammar.applied bound

/-- How the reader of a rank goes on from an expression. -/
def goOn : Rank → Nat → Expr → Parse Expr
  | .or, bound, e => chainRest bound .or e
  | .and, bound, e => chainRest bound .and e
  | .comparison, bound, e => chainRest bound .comparison e
  | .sum, bound, e => chainRest bound .sum e
  | .product, bound, e => chainRest bound .product e
  | .applied, bound, e => trailers bound e
  | _, _, e => pure e

theorem depth_le (r : Rank) : r.depth ≤ 15 := by cases r <;> decide

/-- The reader of a rank comes from these tokens to where it goes on from an expression
like this one. Every token takes at most one from the bound. -/
def Admits (r : Rank) (e : Expr) (ks : List Token.Kind) (follow : Token.Kind → Prop) : Prop :=
  ∀ bound, 20 * ks.length ≤ bound + r.depth →
    Leads (r.reader bound) ks follow
      (fun found : Expr × Nat => found.1.bare = e.bare ∧ bound ≤ found.2 + ks.length + 1)
      fun found => r.goOn found.2 found.1

/-- The reader of a rank reads these tokens as an expression like this one. -/
def Accepts (r : Rank) (e : Expr) (ks : List Token.Kind) : Prop :=
  ∀ bound, 20 * ks.length ≤ bound + r.depth →
    Reads (r.reader bound) ks (fun k => k.ends r = true) fun e' => e'.bare = e.bare

end Rank

namespace Level

variable {level : Level}

theorem reader_rank (level : Level) (bound : Nat) : level.rank.reader bound = chain bound level := by
  cases level <;> rfl

theorem goOn_rank (level : Level) (bound : Nat) (e : Expr) :
    level.rank.goOn bound e = chainRest bound level e := by
  cases level <;> rfl

theorem operand_succ (level : Level) (bound : Nat) :
    operand (bound + 1) level = level.rank.next.reader bound := by
  cases level <;> rw [operand] <;> rfl

theorem depth_next (level : Level) :
    level.rank.next.depth = level.rank.depth + 2 ∧ level.rank.depth ≤ 11 := by
  cases level <;> decide

theorem connective?_of_ends (h : k.ends level.rank = true) : level.connective? k = none := by
  unfold connective?
  split <;> first | rfl | cases h

theorem operator_of_ends {rest : List Token} (h : (Token.front rest).kind.ends level.rank = true) :
    level.operator rest = .ok none rest := by
  unfold operator
  split
  · cases h
  · rw [connective?_of_ends h]

end Level

theorem Rank.goOn_of_ends {rest : List Token} (h : (Token.front rest).kind.ends r = true)
    (bound : Nat) (e : Expr) : r.goOn (bound + 1) e rest = .ok e rest := by
  have hchain {level : Level} (h : (Token.front rest).kind.ends level.rank = true) :
      chainRest (bound + 1) level e rest = .ok e rest := by
    rw [chainRest, Parse.bind_of_ok (Level.operator_of_ends h)]
    rfl
  cases r with
  | or => exact @hchain .or h
  | and => exact @hchain .and h
  | comparison => exact @hchain .comparison h
  | sum => exact @hchain .sum h
  | product => exact @hchain .product h
  | applied =>
    change trailers (bound + 1) e rest = _
    rw [trailers, Parse.bind_peek]
    generalize (Token.front rest).kind = k at h ⊢
    split
    all_goals first | rfl | cases h
  | _ => rfl

namespace Rank

variable {e : Expr} {follow : Token.Kind → Prop}

theorem Admits.imp {follow' : Token.Kind → Prop} (h : r.Admits e ks follow)
    (hfollow : ∀ k, follow' k → follow k) : r.Admits e ks follow' :=
  fun bound hbound => (h bound hbound).imp hfollow fun _ hfound => hfound

theorem Admits.congr {e' : Expr} (h : r.Admits e ks follow) (he : e.bare = e'.bare) :
    r.Admits e' ks follow :=
  fun bound hbound => (h bound hbound).imp (fun _ hk => hk) fun _ hfound => ⟨hfound.1.trans he, hfound.2⟩

/-- A reader that comes to an expression reads it, if a token that ends it comes next. -/
theorem Admits.accepts (h : r.Admits e ks follow) (hfollow : ∀ k, k.ends r = true → follow k)
    (hks : ks ≠ []) : r.Accepts e ks := by
  intro bound hbound ts rest hts hne hrest
  obtain ⟨⟨e', left⟩, ⟨he, hleft⟩, hread⟩ := h bound hbound ts rest hts hne (hfollow _ hrest)
  have hlength := List.length_pos_iff.2 hks
  have hdepth := r.depth_le
  rcases left with _ | n
  · omega
  exact ⟨e', he, hread.trans (goOn_of_ends hrest n e')⟩

theorem Accepts.below (h : r.Accepts e ks) {q : Rank} (hle : q ≤ r) {bound : Nat}
    (hbound : 20 * ks.length ≤ bound + r.depth) :
    Reads (r.reader bound) ks (fun k => k.ends q = true) fun e' => e'.bare = e.bare :=
  (h bound hbound).imp (fun _ hk => Token.Kind.ends_of_le hk hle) fun _ he => he

theorem Accepts.above (h : r.Accepts e ks) (hr : r = .lambda ∨ r = .sign) {bound : Nat}
    (hbound : 20 * ks.length ≤ bound + r.depth) :
    Reads (r.reader bound) ks (fun k => k.ends r.next = true) fun e' => e'.bare = e.bare :=
  (h bound hbound).imp (fun _ hk => Token.Kind.ends_of_next hr hk) fun _ he => he

/-- A rank whose reader does not go on from an expression reads no more than it. -/
theorem Accepts.admits (h : r.Accepts e ks) (hgoOn : ∀ n e', r.goOn n e' = pure e') :
    r.Admits e ks fun k => k.ends r = true := by
  intro bound hbound ts rest hts hne hrest
  obtain ⟨e', he, hread⟩ := h bound hbound ts rest hts hne hrest
  refine ⟨(e', bound), ⟨he, by omega⟩, ?_⟩
  change _ = r.goOn bound e' rest
  rw [hread, hgoOn]

theorem accepts_of_succ (hks : 0 < ks.length)
    (h : ∀ n, 20 * ks.length ≤ n + 1 + r.depth →
      Reads (r.reader (n + 1)) ks (fun k => k.ends r = true) fun e' => e'.bare = e.bare) :
    r.Accepts e ks := by
  intro bound hbound
  have hdepth := r.depth_le
  rcases bound with _ | n
  · omega
  exact h n hbound

end Rank

/-! ### Handing down -/

theorem Opening.leading (h : Opening r ks) (follow : Token.Kind → Prop) :
    Leading ks follow fun k => k.opens r = true := by
  cases ks with
  | nil => exact h.elim
  | cons k ks => exact h.1

theorem Opening.not_same (h : Opening r ks) (follow : Token.Kind → Prop) {kind : Token.Kind}
    (hkind : kind.opens r = false) : Leading ks follow fun k => k.same kind = false :=
  (h.leading follow).imp fun _ hk => Token.Kind.same_eq_false hk hkind

theorem Opening.append_not_same (h : Opening r ks) (ks' : List Token.Kind)
    (follow : Token.Kind → Prop) {kind : Token.Kind} (hkind : kind.opens r = false) :
    Leading (ks ++ ks') follow fun k => k.same kind = false :=
  (h.not_same follow hkind).append h.length_pos ks' follow

namespace Rank

variable {e : Expr}

theorem accepts_lambda (h : conditional.Accepts e ks) (hopen : Opening .conditional ks) :
    lambda.Accepts e ks := by
  refine accepts_of_succ hopen.length_pos fun n hn => ?_
  change Reads (expr (n + 1)) _ _ _
  rw [expr]
  refine .miss (hopen.not_same _ rfl) ?_
  exact h.below (by decide) hn

theorem accepts_conditional (h : or.Accepts e ks) (hks : 0 < ks.length) :
    conditional.Accepts e ks := by
  refine accepts_of_succ hks fun n hn => ?_
  change Reads (Grammar.conditional (n + 1)) _ _ _
  rw [Grammar.conditional]
  refine (h.below (by decide) hn).last fun e' he => .skip (fun k hk => Token.Kind.same_eq_false hk rfl) (.done he)

theorem accepts_not (h : comparison.Accepts e ks) (hopen : Opening .comparison ks) :
    not.Accepts e ks := by
  refine accepts_of_succ hopen.length_pos fun n hn => ?_
  change Reads (negation (n + 1)) _ _ _
  rw [negation]
  refine .here fun pos => .skip (hopen.not_same _ rfl) ?_
  exact h.below (by decide) hn

theorem accepts_sign (h : power.Accepts e ks) (hopen : Opening .power ks) : sign.Accepts e ks := by
  refine accepts_of_succ hopen.length_pos fun n hn => ?_
  change Reads (signed (n + 1)) _ _ _
  rw [signed]
  refine .here fun pos => .skip (hopen.not_same _ rfl) ?_
  refine .skip (hopen.not_same _ rfl) ?_
  exact h.below (by decide) hn

theorem accepts_power (h : applied.Accepts e ks) (hks : 0 < ks.length) : power.Accepts e ks := by
  refine accepts_of_succ hks fun n hn => ?_
  change Reads (Grammar.power (n + 1)) _ _ _
  rw [Grammar.power]
  refine (h.below (by decide) hn).last fun e' he => .skip (fun k hk => Token.Kind.same_eq_false hk rfl) (.done he)

end Rank

theorem Level.admits_operand {e : Expr} (level : Level) (h : level.rank.next.Accepts e ks)
    (hks : 0 < ks.length) : level.rank.Admits e ks fun k => k.ends level.rank.next = true := by
  intro bound hbound
  obtain ⟨hnext, hdepth⟩ := level.depth_next
  obtain ⟨n, rfl⟩ : ∃ n, bound = n + 2 := ⟨bound - 2, by omega⟩
  rw [level.reader_rank, chain, level.operand_succ]
  refine (h n (by omega)).last fun e' he => ?_
  exact .stop (e', n + 1) ⟨he, by omega⟩ (level.goOn_rank _ _).symm

/-! ### Operators between operands -/

/-- Tokens that write an operator of a level. They end its left operand. -/
structure Level.Writes (level : Level) (c : Connective) (ks : List Token.Kind) : Prop where
  reads : Reads level.operator ks (fun _ => True) fun found => found = some c
  first : ∀ ks' follow, Leading (ks ++ ks') follow fun k => k.ends level.rank.next = true
  filled : 0 < ks.length

theorem Level.writes_token {level : Level} {c : Connective} (h : level.connective? k = some c)
    (hends : k.ends level.rank.next = true) (hnot : k ≠ .word .not_) : level.Writes c [k] where
  reads := by
    refine Leads.cons (.done rfl) fun pos ts hne => ?_
    unfold operator
    split
    · exact absurd (by simp_all) hnot
    · rw [show (Token.front (⟨k, pos⟩ :: ts)).kind = k from rfl, h, Token.behind_cons hne]
      rfl
  first _ _ := hends
  filled := Nat.one_pos

theorem Level.writes_notIn :
    Level.comparison.Writes (.binary .notIn) [.word .not_, .word .in_] where
  reads := fun ts rest hts hne _ => by
    obtain ⟨⟨_, p⟩, us, rfl, rfl, hus⟩ := List.map_eq_cons_iff.1 hts
    obtain ⟨⟨_, q⟩, vs, rfl, rfl, hvs⟩ := List.map_eq_cons_iff.1 hus
    cases List.map_eq_nil_iff.1 hvs
    refine ⟨_, rfl, ?_⟩
    change Parsed.ok _ (Token.behind (⟨.word .in_, q⟩ :: rest)) = _
    rw [Token.behind_cons hne]
    rfl
  first _ _ := rfl
  filled := by decide

theorem LogicOp.writes (op : LogicOp) :
    ∃ level : Level, op.rank = level.rank ∧ level.Writes (.logic op) [op.kind] := by
  cases op with
  | or => exact ⟨.or, rfl, Level.writes_token rfl rfl nofun⟩
  | and => exact ⟨.and, rfl, Level.writes_token rfl rfl nofun⟩

/-- All operators but the power are operators of a level. -/
theorem BinaryOp.writes {op : BinaryOp} (hop : op ≠ .pow) :
    ∃ level : Level, op.rank = level.rank ∧ op.leftRank = level.rank ∧
      op.rightRank = level.rank.next ∧ level.Writes (.binary op) op.kinds := by
  cases op with
  | add | sub => exact ⟨.sum, rfl, rfl, rfl, Level.writes_token rfl rfl nofun⟩
  | mul | div | floorDiv | mod => exact ⟨.product, rfl, rfl, rfl, Level.writes_token rfl rfl nofun⟩
  | eq | ne | lt | le | gt | ge | isIn =>
    exact ⟨.comparison, rfl, rfl, rfl, Level.writes_token rfl rfl nofun⟩
  | notIn => exact ⟨.comparison, rfl, rfl, rfl, Level.writes_notIn⟩
  | pow => exact absurd rfl hop

theorem Connective.bare_join (c : Connective) {left left' right right' : Expr}
    (hleft : left'.bare = left.bare) (hright : right'.bare = right.bare) :
    (c.join left' right').bare = (c.join left right).bare := by
  cases c <;> simp only [join, Expr.bare, hleft, hright]

theorem Level.admits_join {level : Level} {c : Connective} {ksop ksl ksr : List Token.Kind}
    {left right : Expr} (hop : level.Writes c ksop)
    (hleft : level.rank.Admits left ksl fun k => k.ends level.rank.next = true)
    (hright : level.rank.next.Accepts right ksr) :
    level.rank.Admits (c.join left right) (ksl ++ (ksop ++ ksr))
      fun k => k.ends level.rank.next = true := by
  intro bound hbound
  simp only [List.length_append] at hbound ⊢
  obtain ⟨hnext, hdepth⟩ := level.depth_next
  have hfilled := hop.filled
  refine (hleft bound (by omega)).trans (hop.first _ _) ?_
  rintro ⟨l, spare⟩ ⟨hl, hspare⟩
  obtain ⟨n, rfl⟩ : ∃ n, spare = n + 2 := ⟨spare - 2, by simp only at hspare; omega⟩
  simp only at hl hspare ⊢
  rw [level.goOn_rank, chainRest]
  refine hop.reads.bind (.trivial _ _) fun found hfound => ?_
  subst hfound
  change Leads (operand (n + 1) level >>= _) _ _ _ _
  rw [level.operand_succ]
  refine (hright n (by omega)).last fun r hr => ?_
  exact .stop (c.join l r, n + 1) ⟨c.bare_join hl hr, by omega⟩ (level.goOn_rank _ _).symm

namespace Rank

theorem accepts_pow {base exponent : Expr} {ksb kse : List Token.Kind} (p : Position)
    (hbase : applied.Accepts base ksb) (hexponent : sign.Accepts exponent kse) :
    power.Accepts (.binary p .pow base exponent) (ksb ++ ([.symbol .starStar] ++ kse)) := by
  refine accepts_of_succ (List.length_pos_iff.2 (by simp)) fun n hn => ?_
  simp only [List.length_append, List.length_singleton, depth] at hn
  change Reads (Grammar.power (n + 1)) _ _ _
  rw [Grammar.power]
  refine (hbase n (by simp only [depth]; omega)).bind rfl fun b hb => .accept ?_ rfl
  refine (hexponent.above (.inr rfl) (by simp only [depth]; omega)).last fun x hx => .done ?_
  simp only [Expr.bare, hb, hx]

theorem accepts_negation {operand : Expr} (p : Position) (h : not.Accepts operand ks) :
    not.Accepts (.unary p .not operand) (.word .not_ :: ks) := by
  refine accepts_of_succ (by simp) fun n hn => ?_
  rw [List.length_cons] at hn
  change Reads (negation (n + 1)) _ _ _
  rw [negation]
  refine .here fun pos => .accept ?_ rfl
  refine (h n (by omega)).last fun x hx => .done ?_
  simp only [Expr.bare, hx]

theorem accepts_signed {operand : Expr} (p : Position) {op : UnaryOp} (hop : op ≠ .not)
    (h : sign.Accepts operand ks) : sign.Accepts (.unary p op operand) (op.kind :: ks) := by
  refine accepts_of_succ (by simp) fun n hn => ?_
  rw [List.length_cons] at hn
  change Reads (signed (n + 1)) _ _ _
  rw [signed]
  refine .here fun pos => ?_
  cases op with
  | not => exact absurd rfl hop
  | neg =>
    refine .accept ?_ rfl
    refine (h n (by omega)).last fun x hx => .done ?_
    simp only [Expr.bare, hx]
  | pos =>
    refine .skip rfl (.accept ?_ rfl)
    refine (h n (by omega)).last fun x hx => .done ?_
    simp only [Expr.bare, hx]

theorem accepts_choice {condition thenValue elseValue : Expr} {ksc kst kse : List Token.Kind}
    (p : Position) (hcondition : or.Accepts condition ksc) (hthen : or.Accepts thenValue kst)
    (helse : lambda.Accepts elseValue kse) :
    conditional.Accepts (.conditional p condition thenValue elseValue)
      (kst ++ (.word .if_ :: (ksc ++ (.word .else_ :: kse)))) := by
  refine accepts_of_succ (List.length_pos_iff.2 (by simp)) fun n hn => ?_
  simp only [List.length_append, List.length_cons, depth] at hn
  change Reads (Grammar.conditional (n + 1)) _ _ _
  rw [Grammar.conditional]
  refine (hthen n (by simp only [depth]; omega)).bind rfl fun t ht => .accept ?_ rfl
  refine (hcondition n (by simp only [depth]; omega)).bind rfl fun c hc => .expect ?_ rfl
  refine (helse.above (.inl rfl) (by simp only [depth]; omega)).last fun e he => .done ?_
  simp only [Expr.bare, ht, hc, he]

end Rank

end Scripting
