/-
# Writing expressions with few brackets

The precedence table: every expression has a rank, every place in an expression asks for
one, and round brackets are written only around what binds less tightly than its place
asks. The tokens of an expression are those of its tree; positions play no part, so two
trees are compared without theirs (`Expr.bare`).

A call is written with the bracket right behind what is called. Behind an attribute that
bracket makes it the call of a method, though an attribute binds as tightly as a call. So
there is a choice: `apart` puts a called attribute in brackets of its own, beyond the rule.
-/
import Scripting.Grammar.Expr
import Scripting.Proofs.Syntax.Admissible

namespace Scripting

/-- How tightly an expression binds, from the loosest to the tightest. -/
inductive Rank where
  | lambda | conditional | or | and | not | comparison | sum | product | sign | power | applied
  deriving DecidableEq, Repr

namespace Rank

/-- How far down in the grammar the expressions of a rank are read, counted in readers
that call each other. -/
def depth : Rank → Nat
  | lambda => 0
  | conditional => 1
  | or => 2
  | and => 4
  | not => 6
  | comparison => 7
  | sum => 9
  | product => 11
  | sign => 13
  | power => 14
  | applied => 15

instance : LE Rank := ⟨fun r q => r.depth ≤ q.depth⟩

instance : LT Rank := ⟨fun r q => r.depth < q.depth⟩

instance (r q : Rank) : Decidable (r ≤ q) := inferInstanceAs (Decidable (r.depth ≤ q.depth))

instance (r q : Rank) : Decidable (r < q) := inferInstanceAs (Decidable (r.depth < q.depth))

def next : Rank → Rank
  | lambda => conditional
  | conditional => or
  | or => and
  | and => not
  | not => comparison
  | comparison => sum
  | sum => product
  | product => sign
  | sign => power
  | power => applied
  | applied => applied

end Rank

/-! ### The table -/

/-- The rank of the expressions that an operator makes. -/
def BinaryOp.rank : BinaryOp → Rank
  | .add | .sub => .sum
  | .mul | .div | .floorDiv | .mod => .product
  | .pow => .power
  | .eq | .ne | .lt | .le | .gt | .ge | .isIn | .notIn => .comparison

def BinaryOp.leftRank : BinaryOp → Rank
  | .pow => .applied
  | op => op.rank

def BinaryOp.rightRank : BinaryOp → Rank
  | .pow => .sign
  | op => op.rank.next

def BinaryOp.kinds : BinaryOp → List Token.Kind
  | .add => [.symbol .plus]
  | .sub => [.symbol .minus]
  | .mul => [.symbol .star]
  | .div => [.symbol .slash]
  | .floorDiv => [.symbol .slashSlash]
  | .mod => [.symbol .percent]
  | .pow => [.symbol .starStar]
  | .eq => [.symbol .equal]
  | .ne => [.symbol .notEqual]
  | .lt => [.symbol .less]
  | .le => [.symbol .lessEqual]
  | .gt => [.symbol .greater]
  | .ge => [.symbol .greaterEqual]
  | .isIn => [.word .in_]
  | .notIn => [.word .not_, .word .in_]

def LogicOp.rank : LogicOp → Rank
  | .or => .or
  | .and => .and

def LogicOp.kind : LogicOp → Token.Kind
  | .or => .word .or_
  | .and => .word .and_

def UnaryOp.rank : UnaryOp → Rank
  | .not => .not
  | .neg | .pos => .sign

def UnaryOp.kind : UnaryOp → Token.Kind
  | .not => .word .not_
  | .neg => .symbol .minus
  | .pos => .symbol .plus

def Expr.rank : Expr → Rank
  | .lambda .. => .lambda
  | .conditional .. => .conditional
  | .logic _ op _ _ => op.rank
  | .binary _ op _ _ => op.rank
  | .unary _ op _ => op.rank
  | _ => .applied

def Expr.isMember : Expr → Bool
  | .member .. => true
  | _ => false

/-! ### Tokens -/

def bracketed (ks : List Token.Kind) : List Token.Kind :=
  .symbol .leftParen :: (ks ++ [.symbol .rightParen])

/-- The tokens of something of a rank of its own at a place that asks for one. -/
def Rank.fit (asked own : Rank) (ks : List Token.Kind) : List Token.Kind :=
  if own < asked then bracketed ks else ks

def behindCommas (items : List (List Token.Kind)) : List Token.Kind :=
  items.flatMap (.symbol .comma :: ·)

def separated : List (List Token.Kind) → List Token.Kind
  | [] => []
  | item :: items => item ++ behindCommas items

def Target.isGroup : Target → Bool
  | .group _ => true
  | _ => false

/-- The tokens of what a loop binds. A group in a group stands in brackets. -/
def Target.kinds : Target → List Token.Kind
  | .name x => [.name x]
  | .index _ _ => []
  | .group targets =>
    separated (targets.map fun t => if t.isGroup then bracketed t.kinds else t.kinds)
termination_by t => sizeOf t

mutual

/-- The tokens of an expression. With `apart`, a called attribute stands in brackets. -/
def Expr.kinds (apart : Bool) : Expr → List Token.Kind
  | .int _ n => [.int n]
  | .float _ x => [.float x]
  | .str _ s => [.str s]
  | .bool _ b => [.word (if b then .true_ else .false_)]
  | .none _ => [.word .none_]
  | .name _ name => [.name name]
  | .binary _ op left right =>
    op.leftRank.fit left.rank (left.kinds apart) ++
      (op.kinds ++ op.rightRank.fit right.rank (right.kinds apart))
  | .logic _ op left right =>
    op.rank.fit left.rank (left.kinds apart) ++
      (op.kind :: op.rank.next.fit right.rank (right.kinds apart))
  | .unary _ op operand => op.kind :: op.rank.fit operand.rank (operand.kinds apart)
  | .conditional _ condition thenValue elseValue =>
    Rank.or.fit thenValue.rank (thenValue.kinds apart) ++
      (.word .if_ :: (Rank.or.fit condition.rank (condition.kinds apart) ++
        (.word .else_ :: elseValue.kinds apart)))
  | .call _ callee args keywords =>
    (if apart && callee.isMember then bracketed (callee.kinds apart)
      else Rank.applied.fit callee.rank (callee.kinds apart)) ++
      bracketed (separated (args.map (Expr.kinds apart) ++ keywords.map (Keyword.kinds apart)))
  | .index _ container key =>
    Rank.applied.fit container.rank (container.kinds apart) ++
      (.symbol .leftBracket :: (key.kinds apart ++ [.symbol .rightBracket]))
  | .slice _ container start stop step =>
    Rank.applied.fit container.rank (container.kinds apart) ++
      (.symbol .leftBracket :: (Expr.kindsIf apart [] start ++ (.symbol .colon ::
        (Expr.kindsIf apart [] stop ++ (Expr.kindsIf apart [.symbol .colon] step ++
          [.symbol .rightBracket])))))
  | .member _ object name =>
    Rank.applied.fit object.rank (object.kinds apart) ++ [.symbol .dot, .name name]
  | .method _ object name args keywords =>
    Rank.applied.fit object.rank (object.kinds apart) ++ (.symbol .dot :: .name name ::
      bracketed (separated (args.map (Expr.kinds apart) ++ keywords.map (Keyword.kinds apart))))
  | .list _ items =>
    .symbol .leftBracket :: (separated (items.map (Expr.kinds apart)) ++ [.symbol .rightBracket])
  | .dict _ entries =>
    .symbol .leftBrace :: (separated (entries.map (DictEntry.kinds apart)) ++ [.symbol .rightBrace])
  | .listOf _ item clause =>
    .symbol .leftBracket :: (item.kinds apart ++ (clause.kinds apart ++ [.symbol .rightBracket]))
  | .dictOf _ key value clause =>
    .symbol .leftBrace :: (key.kinds apart ++ (.symbol .colon ::
      (value.kinds apart ++ (clause.kinds apart ++ [.symbol .rightBrace]))))
  | .lambda _ params body =>
    .word .lambda_ :: (separated (params.map (Param.kinds apart)) ++
      (.symbol .colon :: body.kinds apart))
  | .fstring _ _ => []
termination_by e => sizeOf e

/-- A part that may be left out, behind the tokens that announce it. -/
def Expr.kindsIf (apart : Bool) (announced : List Token.Kind) : Option Expr → List Token.Kind
  | none => []
  | some e => announced ++ e.kinds apart
termination_by e => sizeOf e

def Keyword.kinds (apart : Bool) : Keyword → List Token.Kind
  | ⟨name, value⟩ => .name name :: .symbol .assign :: value.kinds apart
termination_by k => sizeOf k

def DictEntry.kinds (apart : Bool) : DictEntry → List Token.Kind
  | ⟨key, value⟩ => key.kinds apart ++ (.symbol .colon :: value.kinds apart)
termination_by e => sizeOf e

def Clause.kinds (apart : Bool) : Clause → List Token.Kind
  | ⟨target, iterable, condition⟩ =>
    .word .for_ :: (target.kinds ++ (.word .in_ ::
      (Rank.or.fit iterable.rank (iterable.kinds apart) ++ Clause.conditionKinds apart condition)))
termination_by c => sizeOf c

def Clause.conditionKinds (apart : Bool) : Option Expr → List Token.Kind
  | none => []
  | some e => .word .if_ :: Rank.or.fit e.rank (e.kinds apart)
termination_by e => sizeOf e

def Param.kinds (apart : Bool) : Param → List Token.Kind
  | ⟨name, _, default⟩ => .name name :: Expr.kindsIf apart [.symbol .assign] default
termination_by p => sizeOf p

end

/-- The tokens of an expression at a place that asks for a rank. -/
def Expr.kindsAt (apart : Bool) (r : Rank) (e : Expr) : List Token.Kind :=
  r.fit e.rank (e.kinds apart)

/-! ### Trees without positions -/

mutual

/-- An expression with its positions taken out. -/
def Expr.bare : Expr → Expr
  | .int _ n => .int .start n
  | .float _ x => .float .start x
  | .str _ s => .str .start s
  | .bool _ b => .bool .start b
  | .none _ => .none .start
  | .name _ name => .name .start name
  | .binary _ op left right => .binary .start op left.bare right.bare
  | .logic _ op left right => .logic .start op left.bare right.bare
  | .unary _ op operand => .unary .start op operand.bare
  | .conditional _ condition thenValue elseValue =>
    .conditional .start condition.bare thenValue.bare elseValue.bare
  | .call _ callee args keywords =>
    .call .start callee.bare (args.map Expr.bare) (keywords.map Keyword.bare)
  | .index _ container key => .index .start container.bare key.bare
  | .slice _ container start stop step =>
    .slice .start container.bare (Expr.bareIf start) (Expr.bareIf stop) (Expr.bareIf step)
  | .member _ object name => .member .start object.bare name
  | .method _ object name args keywords =>
    .method .start object.bare name (args.map Expr.bare) (keywords.map Keyword.bare)
  | .list _ items => .list .start (items.map Expr.bare)
  | .dict _ entries => .dict .start (entries.map DictEntry.bare)
  | .listOf _ item clause => .listOf .start item.bare clause.bare
  | .dictOf _ key value clause => .dictOf .start key.bare value.bare clause.bare
  | .lambda _ params body => .lambda .start (params.map Param.bare) body.bare
  | .fstring _ parts => .fstring .start (parts.map FStringPart.bare)
termination_by e => sizeOf e

def Expr.bareIf : Option Expr → Option Expr
  | none => none
  | some e => some e.bare
termination_by e => sizeOf e

def Keyword.bare : Keyword → Keyword
  | ⟨name, value⟩ => ⟨name, value.bare⟩
termination_by k => sizeOf k

def DictEntry.bare : DictEntry → DictEntry
  | ⟨key, value⟩ => ⟨key.bare, value.bare⟩
termination_by e => sizeOf e

def Clause.bare : Clause → Clause
  | ⟨target, iterable, condition⟩ => ⟨target.bare, iterable.bare, Expr.bareIf condition⟩
termination_by c => sizeOf c

def Param.bare : Param → Param
  | ⟨name, _, default⟩ => ⟨name, .start, Expr.bareIf default⟩
termination_by p => sizeOf p

def FStringPart.bare : FStringPart → FStringPart
  | .text s => .text s
  | .field value repr spec => .field value.bare repr spec
termination_by p => sizeOf p

def Target.bare : Target → Target
  | .name name => .name name
  | .index container key => .index container.bare key.bare
  | .group targets => .group (targets.map Target.bare)
termination_by t => sizeOf t

end

/-! ### Trees that can be written -/

/-- A target of names and groups of at least two targets. -/
inductive Target.Spread : Target → Prop
  | name (name : String) : Spread (.name name)
  | group {targets : List Target} (several : 2 ≤ targets.length)
      (each : ∀ t ∈ targets, t.Spread) : Spread (.group targets)

theorem Target.Spread.bindable {t : Target} (h : t.Spread) : t.Bindable := by
  induction h with
  | name x => exact .name x
  | group several _ ih => exact .group (by rintro rfl; cases several) ih

/-- An expression without f-strings in which everything keeps to the rules of the syntax,
and no comprehension binds a group of one. -/
inductive Expr.Plain : Expr → Prop
  | intro {e : Expr} (rule : e.Admissible) (noFields : ∀ p parts, e ≠ .fstring p parts)
      (spread : ∀ c, e.clause? = some c → c.target.Spread)
      (inside : ∀ part ∈ e.parts, part.Plain) : e.Plain

/-! ### First tokens -/

/-- The rank of what a token can begin. -/
def Token.Kind.opens? : Token.Kind → Option Rank
  | .word .lambda_ => some .lambda
  | .word .not_ => some .not
  | .symbol .minus | .symbol .plus => some .sign
  | .int _ | .float _ | .str _ | .name _ | .word .true_ | .word .false_ | .word .none_
  | .symbol .leftParen | .symbol .leftBracket | .symbol .leftBrace => some .applied
  | _ => none

/-- Whether a token can begin what stands at a place that asks for a rank. -/
def Token.Kind.opens (r : Rank) (k : Token.Kind) : Bool := k.opens?.any (r ≤ ·)

theorem Token.Kind.opens_of_le {r q : Rank} {k : Token.Kind} (h : k.opens r = true) (hq : q ≤ r) :
    k.opens q = true := by
  unfold opens at h ⊢
  cases hk : k.opens? with
  | none => rw [hk] at h; cases h
  | some p =>
    rw [hk] at h
    exact decide_eq_true (Nat.le_trans hq (of_decide_eq_true h))

/-- Tokens that begin something of a rank, and do not look like a keyword argument. -/
def Opening (r : Rank) : List Token.Kind → Prop
  | [] => False
  | k :: ks => k.opens r = true ∧ ∀ x, k = .name x → ks.head? ≠ some (.symbol .assign)

namespace Opening

variable {r q : Rank} {ks ks' : List Token.Kind}

theorem append (h : Opening r ks) (hnext : ks'.head? ≠ some (.symbol .assign)) :
    Opening r (ks ++ ks') := by
  cases ks with
  | nil => exact h.elim
  | cons k ks =>
    refine ⟨h.1, fun x hx => ?_⟩
    cases ks with
    | nil => exact hnext
    | cons k' ks => exact h.2 x hx

theorem length_pos (h : Opening r ks) : 0 < ks.length := by
  cases ks with
  | nil => exact h.elim
  | cons k ks => exact Nat.succ_pos _

theorem mono (h : Opening r ks) (hq : q ≤ r) : Opening q ks := by
  cases ks with
  | nil => exact h.elim
  | cons k ks => exact ⟨Token.Kind.opens_of_le h.1 hq, h.2⟩

theorem cons {k : Token.Kind} (h : k.opens r = true) (hname : ∀ x, k ≠ .name x)
    (ks : List Token.Kind) : Opening r (k :: ks) := ⟨h, fun x hx => absurd hx (hname x)⟩

theorem bracketed (r : Rank) (ks : List Token.Kind) : Opening r (bracketed ks) :=
  (cons rfl (by simp) _ : Opening .applied _).mono (by cases r <;> decide)

theorem fit (h : Opening q ks) (r : Rank) : Opening r (r.fit q ks) := by
  unfold Rank.fit
  split
  · exact bracketed r ks
  · exact h.mono (Nat.le_of_not_lt ‹_›)

end Opening

theorem BinaryOp.head?_kinds (op : BinaryOp) (ks : List Token.Kind) :
    (op.kinds ++ ks).head? ≠ some (.symbol .assign) := by
  cases op <;> exact nofun

theorem BinaryOp.rank_le_leftRank (op : BinaryOp) : op.rank ≤ op.leftRank := by
  cases op <;> decide

namespace Expr.Plain

variable {e : Expr}

theorem opening (h : e.Plain) (apart : Bool) : Opening e.rank (e.kinds apart) := by
  induction h with
  | @intro e rule noFields spread inside ih =>
    have hhead {head : Expr} (hmem : head ∈ e.parts) {ks : List Token.Kind}
        (hks : ks.head? ≠ some (.symbol .assign)) :
        Opening .applied (Rank.applied.fit head.rank (head.kinds apart) ++ ks) :=
      ((ih head hmem).fit .applied).append hks
    cases e with
    | int | float | str | none | list | dict | listOf | dictOf | lambda =>
      rw [Expr.kinds]
      exact .cons rfl (by simp) _
    | bool p b =>
      rw [Expr.kinds]
      cases b <;> exact .cons rfl (by simp) _
    | name p x =>
      rw [Expr.kinds]
      exact ⟨rfl, nofun⟩
    | binary p op left right =>
      rw [Expr.kinds]
      have hleft := (ih left (.head _)).fit op.leftRank
      exact (hleft.append (op.head?_kinds _)).mono op.rank_le_leftRank
    | logic p op left right =>
      rw [Expr.kinds]
      refine ((ih left (.head _)).fit op.rank).append ?_
      cases op <;> exact nofun
    | unary p op operand =>
      rw [Expr.kinds]
      cases op <;> exact .cons rfl (by simp [UnaryOp.kind]) _
    | conditional p condition thenValue elseValue =>
      rw [Expr.kinds]
      have hthen := (ih thenValue (.tail _ (.head _))).fit .or
      exact (hthen.append (by simp)).mono (show Rank.conditional ≤ Rank.or by decide)
    | call p callee args keywords =>
      rw [Expr.kinds]
      split
      · exact (Opening.bracketed .applied _).append nofun
      · exact hhead (.head _) nofun
    | index | slice | member | method =>
      rw [Expr.kinds]
      exact hhead (.head _) nofun
    | fstring p parts => exact absurd rfl (noFields p parts)

theorem opening_kindsAt (h : e.Plain) (apart : Bool) (r : Rank) :
    Opening r (e.kindsAt apart r) := (h.opening apart).fit r

end Expr.Plain

end Scripting
