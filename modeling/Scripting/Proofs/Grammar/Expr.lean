/-
# Expressions side by side

Every reader of the grammar of expressions stays within a line, and so it tracks itself. What it
reads keeps to the rules, for it checks them, and lies where the tokens lie. An expression takes a
token, and a reader with enough of a bound does not give up, so that a larger one changes nothing.

The readers call each other, with a smaller bound each time. So `ExprTracks` says it of all of
them for two bounds, and the induction is on the smaller bound (`exprTracks`). The fields of an
f-string have tokens of their own, which end; for them there is no seam.
-/
import Scripting.Proofs.Grammar.Sound
import Scripting.Proofs.Grammar.Tracks

namespace Scripting

variable {depth level : Nat} {ending : Ending} {l : Level} {ts : List Token}

open Parse

/-- A reader within a line, and one that reads the same further down. It takes some
closing brackets. -/
structure InLine {α : Type} (strict : Prop) (k low b need cost closes : Nat) (f : α → α)
    (Q : α → Prop) (p p' : Parse α) : Prop where
  reads : ∀ {ending : Ending} {level depth : Nat},
    Tracks strict b need cost (Abreast k low ending true level (depth + closes))
      (Abreast k low ending true level depth) f Q p p'

section

variable {α : Type} {strict : Prop} {k low b b₁ need need₁ cost closes : Nat} {f : α → α}
  {Q : α → Prop} {p p' : Parse α}

theorem InLine.exhausted (h : 0 < need) :
    InLine strict k low 0 need cost closes f Q Parse.exhausted p' := ⟨.exhausted h⟩

theorem InLine.tracks (h : InLine strict k low b need cost closes f Q p p') (hle : b₁ + need ≤ b + need₁ := by omega) :
    Tracks strict b₁ need₁ cost (Abreast k low ending true level (depth + closes))
      (Abreast k low ending true level depth) f Q p p' := h.reads.room hle

end

namespace Grammar

variable {strict : Prop} {k low b b' need : Nat}

/-! ### Readers that call no others -/

theorem keywordName_eq (ts : List Token) : keywordName ts =
    match (Token.front ts).kind, (Token.front (Token.behind ts)).kind with
    | .name name, .symbol .assign => .ok (some name) (Token.behind (Token.behind ts))
    | _, _ => .ok none ts := by
  match ts with
  | [] => rfl
  | [⟨kind, p⟩] => cases kind <;> rfl
  | ⟨kind, p⟩ :: ⟨kind', q⟩ :: rest =>
    cases kind <;> try rfl
    cases kind' <;> try rfl
    next name symbol => cases symbol <;> rfl

theorem keywordName_inLine :
    InLine strict k low b need 0 0 id (fun _ => True) keywordName keywordName := by
  refine ⟨⟨fun {ts ts'} hR => ?_⟩⟩
  rw [keywordName_eq, keywordName_eq, hR.front_eq, Token.kind_down]
  split
  next name hname hassign =>
    have hsolid : (Token.front ts).kind.isSolid = true := by rw [hname]; rfl
    have hbehind := hR.behind hsolid
    have hsolid' : (Token.front (Token.behind ts)).kind.isSolid = true := by rw [hassign]; rfl
    have hbehind' := hbehind.behind hsolid'
    rw [hname, hassign] at hbehind'
    rw [hbehind.front_eq, Token.kind_down, hname, hassign]
    have hleaves := hbehind.leaves_of_isSolid hsolid'
    exact .ok trivial ((hR.leaves_of_isSolid hsolid).drop.trans hleaves.drop) hbehind'
  next hnot =>
    split
    next name hname hassign =>
      have hbehind := hR.behind (by rw [hname]; rfl)
      rw [hbehind.front_eq, Token.kind_down] at hassign
      exact absurd hassign (hnot name hname)
    · exact .ok trivial (.refl ts) hR

/-- Whether the operator that comes next is the one of two tokens. -/
def NotIn (l : Level) (ts : List Token) : Prop :=
  l = .comparison ∧ (Token.front ts).kind = .word .not_ ∧
    (Token.front (Token.behind ts)).kind = .word .in_

theorem operator_of_notIn (h : NotIn l ts) :
    l.operator ts = .ok (some (.binary .notIn)) (Token.behind (Token.behind ts)) := by
  obtain ⟨rfl, hfirst, hsecond⟩ := h
  match ts with
  | [] => cases hfirst
  | [⟨kind, p⟩] =>
    have hkind : kind = .word .not_ := hfirst
    rw [Token.behind, Token.front, hkind] at hsecond
    cases hsecond
  | ⟨kind, p⟩ :: ⟨kind', q⟩ :: rest =>
    have hkind : kind = .word .not_ := hfirst
    have hkind' : kind' = .word .in_ := hsecond
    rw [hkind, hkind']
    rfl

theorem operator_of_not_notIn (h : ¬ NotIn l ts) :
    l.operator ts = match l.connective? (Token.front ts).kind with
      | some c => .ok (some c) (Token.behind ts)
      | none => .ok none ts := by
  unfold Level.operator
  split
  · exact absurd ⟨rfl, rfl, rfl⟩ h
  · rfl

theorem connective?_isSolid {kind : Token.Kind} {c : Connective} (h : l.connective? kind = some c) :
    kind.isSolid = true ∧ ∀ depth, kind.depthBehind depth = depth := by
  unfold Level.connective? at h
  split at h <;> first | exact ⟨rfl, fun _ => rfl⟩ | cases h

theorem operator_tracks {α : Type} {cost : Nat}
    {R' : List Token → List Token → Prop} {f : α → α} {Q : α → Prop} (l : Level)
    {next next' : Option Connective → Parse α}
    (hnone : Tracks strict b need cost (Abreast k low ending true level depth) R' f Q (next none)
      (next' none))
    (hsome : ∀ c, Tracks strict b (need + 32) (cost - 32) (Abreast k low ending true level depth) R'
      f Q (next (some c)) (next' (some c))) :
    Tracks strict b need cost (Abreast k low ending true level depth) R' f Q (l.operator >>= next)
      (l.operator >>= next') := by
  refine ⟨fun {ts ts'} hR => ?_⟩
  have hfront : (Token.front ts').kind = (Token.front ts).kind := by
    rw [hR.front_eq, Token.kind_down]
  have hsecond (h : (Token.front ts).kind = .word .not_) :
      (Token.front (Token.behind ts')).kind = (Token.front (Token.behind ts)).kind := by
    rw [(hR.behind (by rw [h]; rfl)).front_eq, Token.kind_down]
  by_cases hnotIn : NotIn l ts
  · have hnotIn' : NotIn l ts' :=
      ⟨hnotIn.1, hfront.trans hnotIn.2.1, (hsecond hnotIn.2.1).trans hnotIn.2.2⟩
    rw [bind_of_ok (operator_of_notIn hnotIn), bind_of_ok (operator_of_notIn hnotIn')]
    obtain ⟨-, hnot, hin⟩ := hnotIn
    have hsolid : (Token.front ts).kind.isSolid = true := by rw [hnot]; rfl
    have hsolid' : (Token.front (Token.behind ts)).kind.isSolid = true := by rw [hin]; rfl
    have hbehind := hR.behind hsolid
    have hbehind' := hbehind.behind hsolid'
    rw [hnot, hin] at hbehind'
    exact ((hsome _).run hbehind').after
      ((hR.leaves_of_isSolid hsolid).trans (hbehind.leaves_of_isSolid hsolid').drop)
  have hnotIn' : ¬ NotIn l ts' := fun ⟨hlevel, hnot, hin⟩ =>
    hnotIn ⟨hlevel, hfront ▸ hnot, hsecond (hfront ▸ hnot) ▸ hin⟩
  have hrun := operator_of_not_notIn hnotIn
  have hrun' := operator_of_not_notIn hnotIn'
  rw [hfront] at hrun'
  cases hc : l.connective? (Token.front ts).kind with
  | none =>
    rw [hc] at hrun hrun'
    rw [bind_of_ok hrun, bind_of_ok hrun']
    exact hnone.run hR
  | some c =>
    rw [hc] at hrun hrun'
    rw [bind_of_ok hrun, bind_of_ok hrun']
    obtain ⟨hsolid, hdepth⟩ := connective?_isSolid hc
    have hbehind := hR.behind hsolid
    rw [hdepth] at hbehind
    exact ((hsome c).run hbehind).after (hR.leaves_of_isSolid hsolid)

theorem dottedRest_inLine : ∀ {b b' : Nat}, b ≤ b' → ∀ name : String,
    InLine strict k low b 1 0 0 id (fun _ => True) (dottedRest b name) (dottedRest b' name)
  | 0, _, _, _ => .exhausted Nat.zero_lt_one
  | b + 1, b' + 1, h, name => by
    have ih (name : String) := dottedRest_inLine (Nat.le_of_succ_le_succ h) name
    exact ⟨.accept rfl (.bind .expectName fun next _ => (ih _).tracks)
      (.pure rfl trivial)⟩

theorem adjacentStrings_inLine : ∀ {b b' : Nat}, b ≤ b' → ∀ text : String,
    InLine strict k low b 1 0 0 id (fun _ => True) (adjacentStrings b text)
      (adjacentStrings b' text)
  | 0, _, _, _ => .exhausted Nat.zero_lt_one
  | b + 1, b' + 1, h, text => by
    refine ⟨.peek fun t _ => ?_⟩
    rw [Token.kind_down]
    split
    next next hkind =>
      have ih := adjacentStrings_inLine (Nat.le_of_succ_le_succ h)
      exact .take hkind rfl (ih _).tracks
    · exact (Tracks.pure rfl trivial).at_front

theorem loopTargets_inLine {bound : Nat} {atom atom' : Parse Target}
    (h : InLine strict k low bound 1 32 0 (Target.down k) Target.Bindable atom atom') :
    ∀ {b b' : Nat}, b ≤ b' → b ≤ bound → InLine strict k low b 1 0 0 (List.map (Target.down k))
      (∀ t ∈ ·, Target.Bindable t) (loopTargets atom b) (loopTargets atom' b')
  | 0, _, _, _ => .exhausted Nat.zero_lt_one
  | b + 1, b' + 1, hb, hbound => by
    have ih := loopTargets_inLine h (Nat.le_of_succ_le_succ hb) (Nat.le_of_succ_le hbound)
    refine ⟨.accept rfl (.bind (.check _) fun last _ => .ite (fun _ => ?_) fun _ => ?_) ?_⟩
    · exact .pure rfl (List.forall_mem_nil _)
    · refine .bind h.tracks fun next hnext => ?_
      refine .bind ih.tracks fun rest hrest => .pure rfl ?_
      exact List.forall_mem_cons.2 ⟨hnext, hrest⟩
    · exact .pure rfl (List.forall_mem_nil _)

theorem loopTarget_inLine : ∀ {b b' : Nat}, b ≤ b' →
    InLine strict k low b 2 32 0 (Target.down k) Target.Bindable (loopTarget b) (loopTarget b') ∧
    InLine strict k low b 1 32 0 (Target.down k) Target.Bindable (targetAtom b) (targetAtom b')
  | 0, _, _ => ⟨.exhausted Nat.zero_lt_two, .exhausted Nat.zero_lt_one⟩
  | b + 1, b' + 1, hb => by
    have hb := Nat.le_of_succ_le_succ hb
    obtain ⟨htarget, hatom⟩ := loopTarget_inLine hb
    have hmore := loopTargets_inLine hatom hb (Nat.le_refl b)
    refine ⟨⟨?_⟩, ⟨?_⟩⟩
    · refine .bind hatom.tracks fun first hfirst => .bind (.check _) fun _ _ => ?_
      refine .ite (fun _ => ?_) fun _ => .pure rfl hfirst
      refine .bind hmore.tracks fun rest hrest => .pure ?_ ?_
      · rw [Target.down, List.map_cons]
      · exact .group (List.cons_ne_nil _ _) (List.forall_mem_cons.2 ⟨hfirst, hrest⟩)
    refine .accept rfl ?_ (.bind .expectName fun name _ => .pure ?_ (.name name))
    · refine .bind htarget.tracks fun inner h => ?_
      exact .bind (.expect rfl) fun _ _ => .pure rfl h
    · rw [id, Target.down]

theorem conversion_inLine (pos : Position) : ∀ text : Option (List Char),
    InLine strict k low b need 0 0 id (fun _ => True) (conversion pos text)
      (conversion (pos.down k) text)
  | none => ⟨.pure rfl trivial⟩
  | some _ =>
    ⟨.ite (fun _ => .pure rfl trivial) fun _ => .ite (fun _ => .pure rfl trivial) fun _ => .failAt⟩

theorem tokenizeAt_of_fieldTokens {pos : Position} {source : List Char} {inner rest : List Token}
    (h : fieldTokens pos source ts = .ok inner rest) :
    tokenizeAt pos source = .ok inner ∧ rest = ts := by
  unfold fieldTokens at h
  cases hfound : tokenizeAt pos source with
  | ok found =>
    rw [hfound] at h
    cases h
    exact ⟨rfl, rfl⟩
  | error wrong =>
    rw [hfound] at h
    cases wrong <;> cases h

theorem fieldTokens_inLine (hstrict : strict → k = 0) (pos : Position) (source : List Char) :
    InLine strict k low b need 0 0 (List.map (Token.down k)) (tokenizeAt pos source = .ok ·)
      (fieldTokens pos source) (fieldTokens (pos.down k) source) := by
  refine ⟨⟨fun {ts ts'} hR => ?_⟩⟩
  obtain ⟨found, wrong, final, -, -, htokens⟩ := tokenizeAt_finds pos source
  cases wrong with
  | nil =>
    have hinner : tokenizeAt pos source = .ok (found ++ final.closing found.getLast?) := htokens
    unfold fieldTokens
    rw [hinner, tokenizeAt_down k hinner]
    exact .ok rfl (.refl ts) hR
  | cons d wrong =>
    have hfails (ts : List Token) : fieldTokens pos source ts = .error d ts := by
      unfold fieldTokens
      rw [htokens]
      rfl
    rw [hfails]
    refine .error (.refl ts) fun h => ?_
    rw [hstrict h]
    exact ⟨d, ts', hfails ts'⟩

/-- The expression of a field, which fills its tokens. -/
def fieldValue (bound : Nat) : Parse Expr := do
  let value ← expr bound
  expectLineEnd
  if ← atEnd then pure value else unexpected .closingBrace

theorem fstringField_eq (bound : Nat) (pos : Position) (field : FieldText) :
    fstringField (bound + 1) pos field = (do
      let repr ← conversion pos field.conversion
      let source := Text.trim Text.isSpace field.source
      if source.isEmpty then failAt pos .emptyField
      else
        let inner ← fieldTokens pos source
        let value ← within inner (fieldValue bound)
        pure (.field value repr (field.spec.map String.ofList))) := by
  rw [fstringField]
  rfl

/-! ### All readers of expressions -/

section Readers

variable (strict : Prop) (k low b need : Nat)

def ExprInLine (cost : Nat) (p p' : Parse Expr) : Prop :=
  InLine strict k low b need cost 0 (Expr.down k) (Expr.Sound low) p p'

/-- A reader of an expression up to its closing bracket. -/
def ExprCloses (p p' : Parse Expr) : Prop :=
  InLine strict k low b need 0 1 (Expr.down k) (Expr.Sound low) p p'

end Readers

/-- The readers of operators, from an expression down to a power, for two bounds. -/
structure OperatorTracks (strict : Prop) (k low b b' : Nat) : Prop where
  expr : ExprInLine strict k low b 17 32 (Grammar.expr b) (Grammar.expr b')
  lambda : ExprInLine strict k low b 1 32 (Grammar.lambda b) (Grammar.lambda b')
  params : ∀ close {seen}, Param.Sound low seen → InLine strict k low b 1 0 0
    (List.map (Param.down k)) (Param.Sound low) (Grammar.params b close seen)
    (Grammar.params b' close (seen.map (Param.down k)))
  defaultValue : InLine strict k low b 1 0 0 (Expr.downIf k) (Expr.SoundIf low)
    (Grammar.defaultValue b) (Grammar.defaultValue b')
  conditional : ExprInLine strict k low b 16 32 (Grammar.conditional b) (Grammar.conditional b')
  chain : ∀ l, ExprInLine strict k low b (height l + 1) 32 (Grammar.chain b l) (Grammar.chain b' l)
  chainRest : ∀ l {left}, left.Sound low → ExprInLine strict k low b 1 0
    (Grammar.chainRest b l left) (Grammar.chainRest b' l (left.down k))
  operand : ∀ l, ExprInLine strict k low b (height l) 32 (Grammar.operand b l)
    (Grammar.operand b' l)
  negation : ExprInLine strict k low b 11 32 (Grammar.negation b) (Grammar.negation b')
  signed : ExprInLine strict k low b 4 32 (Grammar.signed b) (Grammar.signed b')
  power : ExprInLine strict k low b 3 32 (Grammar.power b) (Grammar.power b')

/-- The readers of what follows a primary. -/
structure TrailerTracks (strict : Prop) (k low b b' : Nat) : Prop where
  applied : ExprInLine strict k low b 2 32 (Grammar.applied b) (Grammar.applied b')
  trailers : ∀ {head}, head.Sound low → ExprInLine strict k low b 1 0 (Grammar.trailers b head)
    (Grammar.trailers b' (head.down k))
  member : ∀ {object}, object.Sound low → ExprInLine strict k low b 1 0 (Grammar.member b object)
    (Grammar.member b' (object.down k))
  subscript : ∀ {container}, container.Sound low → ExprCloses strict k low b 18
    (Grammar.subscript b container) (Grammar.subscript b' (container.down k))
  sliceRest : ∀ {container start}, container.Sound low → Expr.SoundIf low start →
    ExprCloses strict k low b 1 (Grammar.sliceRest b container start)
      (Grammar.sliceRest b' (container.down k) (Expr.downIf k start))
  slicePart : InLine strict k low b 18 0 0 (Expr.downIf k) (Expr.SoundIf low) (Grammar.slicePart b)
    (Grammar.slicePart b')
  arguments : ∀ {args keywords}, Expr.SoundArgs low args keywords → InLine strict k low b 18 0 0
    (fun r => (r.1.map (Expr.down k), r.2.map (Keyword.down k)))
    (fun r => Expr.SoundArgs low r.1 r.2) (Grammar.arguments b args keywords)
    (Grammar.arguments b' (args.map (Expr.down k)) (keywords.map (Keyword.down k)))

/-- The readers of a primary. -/
structure LiteralTracks (strict : Prop) (k low b b' : Nat) : Prop where
  primary : ExprInLine strict k low b 1 32 (Grammar.primary b) (Grammar.primary b')
  parenthesized : ∀ {pos}, low ≤ pos.line → ExprCloses strict k low b 18
    (Grammar.parenthesized b pos) (Grammar.parenthesized b' (pos.down k))
  moreItems : ∀ isClosing, InLine strict k low b 1 0 0 (List.map (Expr.down k))
    (∀ e ∈ ·, Expr.Sound low e) (Grammar.moreItems b isClosing) (Grammar.moreItems b' isClosing)
  listLiteral : ∀ {pos}, low ≤ pos.line → ExprCloses strict k low b 18 (Grammar.listLiteral b pos)
    (Grammar.listLiteral b' (pos.down k))
  dictLiteral : ∀ {pos}, low ≤ pos.line → ExprCloses strict k low b 19 (Grammar.dictLiteral b pos)
    (Grammar.dictLiteral b' (pos.down k))
  dictEntry : InLine strict k low b 18 0 0 (DictEntry.down k) (DictEntry.Sound low)
    (Grammar.dictEntry b) (Grammar.dictEntry b')
  moreEntries : InLine strict k low b 1 0 0 (List.map (DictEntry.down k))
    (∀ e ∈ ·, DictEntry.Sound low e) (Grammar.moreEntries b) (Grammar.moreEntries b')
  clause : InLine strict k low b 1 0 0 (Clause.down k) (Clause.Sound low) (Grammar.clause b)
    (Grammar.clause b')
  fstringParts : ∀ {pos} pieces, low ≤ pos.line → InLine strict k low b
    (demands pieceDemand pieces + 1) 0 0 (List.map (FStringPart.down k))
    (∀ part ∈ ·, Expr.SoundIf low (FStringPart.value? part)) (Grammar.fstringParts b pos pieces)
    (Grammar.fstringParts b' (pos.down k) pieces)
  fstringField : ∀ {pos} field, low ≤ pos.line → InLine strict k low b
    (32 * field.source.length + 19) 0 0 (FStringPart.down k)
    (fun part => Expr.SoundIf low part.value?) (Grammar.fstringField b pos field)
    (Grammar.fstringField b' (pos.down k) field)

/-- With the first bound a reader of expressions reads what it reads with the second one
further down, and it is sound. -/
structure ExprTracks (strict : Prop) (k low b b' : Nat) : Prop extends
  OperatorTracks strict k low b b', TrailerTracks strict k low b b', LiteralTracks strict k low b b'

section

variable (ih : ExprTracks strict k low b b')
include ih

theorem OperatorTracks.succ :
    OperatorTracks strict k low (b + 1) (b' + 1) where
  expr :=
    ⟨.bind (.check _) fun _ _ => .ite (fun _ => ih.lambda.tracks)
      fun _ => ih.conditional.tracks⟩
  lambda := by
    refine ⟨.bind .here fun pos hpos => .bind (.expect rfl) fun _ _ => ?_⟩
    refine .bind (ih.params _ .nil).tracks fun params hparams => ?_
    refine .bind (.expect rfl) fun _ _ => .bind ih.expr.tracks fun body hbody => ?_
    refine .pure (by rw [Expr.down]) ?_
    exact .intro hparams.toListed hpos (List.forall_mem_cons.2 ⟨hbody, hparams.defaults⟩)
  params := fun close {seen} hseen => by
    rw [Grammar.params, Grammar.params]
    refine ⟨.bind (.check _) fun closed _ => .bind (.check _) fun ended _ => ?_⟩
    refine .ite (fun _ => .pure rfl hseen) fun _ => ?_
    refine .bind .here fun pos _ => .bind .expectName fun name _ => ?_
    rw [id, Param.any_name_down]
    refine .ite (fun _ => .failAt) fun hname => ?_
    refine .bind ih.defaultValue.tracks fun default hvalue => ?_
    rw [Expr.isNone_downIf, Param.any_default_down]
    refine .ite (fun _ => .failAt) fun hdefault => ?_
    have hmap : seen.map (Param.down k) ++ [Param.mk name (pos.down k) (Expr.downIf k default)] =
        (seen ++ [Param.mk name pos default]).map (Param.down k) := by
      rw [List.map_append, List.map_singleton, Param.down]
    have hmore : Param.Sound low (seen ++ [⟨name, pos, default⟩]) :=
      hseen.snoc (eq_false_of_ne_true hname) (eq_false_of_ne_true hdefault) hvalue
    rw [hmap]
    exact .accept rfl (ih.params close hmore).tracks (.pure rfl hmore)
  defaultValue := by
    refine ⟨.accept rfl (.bind ih.expr.tracks fun value h => .pure ?_ h.soundIf) ?_⟩
    · rw [Expr.downIf_some]
    · exact .pure (Expr.downIf_none k).symm Expr.soundIf_none
  conditional := by
    have hheight : height .or = 14 := rfl
    refine ⟨.bind (ih.chain _).tracks fun thenValue hthen => ?_⟩
    refine .accept rfl ?_ (.pure rfl hthen)
    refine .bind (ih.chain _).tracks fun condition hcondition => ?_
    refine .bind (.expect rfl) fun _ _ => .bind ih.expr.tracks fun elseValue helse => ?_
    refine .pure (by rw [Expr.down, Expr.pos_down]) ?_
    exact .intro trivial hthen.located (by simp [Expr.parts, hcondition, hthen, helse])
  chain := fun l =>
    ⟨.bind (ih.operand l).tracks fun _ hleft => (ih.chainRest l hleft).tracks⟩
  chainRest := fun l {left} hleft => by
    have hheight := height_le l
    refine ⟨operator_tracks l (.pure rfl hleft) fun c => ?_⟩
    refine .bind (ih.operand l).tracks fun right hright => ?_
    rw [Connective.join_down]
    exact (ih.chainRest l (c.sound_join hleft hright)).tracks
  operand := fun l => by
    cases l with
    | or => exact ⟨(ih.chain .and).tracks (by simp only [height]; omega)⟩
    | and => exact ⟨ih.negation.tracks (by simp only [height]; omega)⟩
    | comparison => exact ⟨(ih.chain .sum).tracks (by simp only [height]; omega)⟩
    | sum => exact ⟨(ih.chain .product).tracks (by simp only [height]; omega)⟩
    | product => exact ⟨ih.signed.tracks (by simp only [height]; omega)⟩
  negation := by
    have hheight : height .comparison = 9 := rfl
    refine ⟨.bind .here fun pos hpos => .accept rfl ?_ (ih.chain _).tracks⟩
    refine .bind ih.negation.tracks fun operand hoperand => .pure (by rw [Expr.down]) ?_
    exact .intro trivial hpos (by simp [Expr.parts, hoperand])
  signed := by
    refine ⟨.bind .here fun pos hpos => .accept rfl ?_ (.accept rfl ?_ ih.power.tracks)⟩
    all_goals
      refine .bind ih.signed.tracks fun operand hoperand => .pure (by rw [Expr.down]) ?_
      exact .intro trivial hpos (by simp [Expr.parts, hoperand])
  power := by
    refine ⟨.bind ih.applied.tracks fun base hbase => .accept rfl ?_ (.pure rfl hbase)⟩
    refine .bind ih.signed.tracks fun exponent h => ?_
    refine .pure (by rw [Expr.down, Expr.pos_down]) ?_
    exact .intro trivial hbase.located (by simp [Expr.parts, hbase, h])

theorem TrailerTracks.succ :
    TrailerTracks strict k low (b + 1) (b' + 1) where
  applied :=
    ⟨.bind ih.primary.tracks fun _ hhead => (ih.trailers hhead).tracks⟩
  trailers := fun {head} hhead => by
    rw [Grammar.trailers, Grammar.trailers]
    refine ⟨.peek fun t _ => ?_⟩
    rw [Token.kind_down]
    split
    next hkind =>
      refine .take hkind rfl ?_
      refine .bind (ih.arguments .nil).tracks fun ⟨args, keywords⟩ h => ?_
      refine .bind (.expect rfl) fun _ _ => ?_
      have hcall : Expr.call (head.down k).pos (head.down k) (args.map (Expr.down k))
          (keywords.map (Keyword.down k)) = (Expr.call head.pos head args keywords).down k := by
        rw [Expr.down, Expr.pos_down]
      have hsound : (Expr.call head.pos head args keywords).Sound low :=
        .intro h.distinct hhead.located (h.parts hhead)
      rw [hcall]
      exact (ih.trailers hsound).tracks
    next hkind =>
      exact .take hkind rfl (.bind (ih.subscript hhead).tracks
        fun _ h => (ih.trailers h).tracks)
    next hkind =>
      exact .take hkind rfl (.bind (ih.member hhead).tracks
        fun _ h => (ih.trailers h).tracks)
    · exact (Tracks.pure rfl hhead).at_front
  member := fun {object} hobject => by
    refine ⟨.bind .expectName fun name _ => .accept rfl ?_ (.pure ?_ ?_)⟩
    · refine .bind (ih.arguments .nil).tracks fun ⟨args, keywords⟩ h => ?_
      refine .bind (.expect rfl) fun _ _ => .pure ?_ ?_
      · rw [Expr.down, Expr.pos_down]
        rfl
      · exact .intro h.distinct hobject.located (h.parts hobject)
    · rw [Expr.down, Expr.pos_down, id]
    · exact .intro trivial hobject.located (by simp [Expr.parts, hobject])
  subscript := fun {container} hcontainer => by
    have hrest := ih.sliceRest hcontainer Expr.soundIf_none
    rw [Expr.downIf_none] at hrest
    refine ⟨.bind (.check _) fun _ _ => .ite (fun _ => hrest.tracks) fun _ => ?_⟩
    refine .bind ih.expr.tracks fun index hindex => .bind (.check _) fun _ _ => ?_
    have hrest := ih.sliceRest hcontainer hindex.soundIf
    rw [Expr.downIf_some] at hrest
    refine .ite (fun _ => hrest.tracks) fun _ => .bind (.expect rfl) fun _ _ => .pure ?_ ?_
    · rw [Expr.down, Expr.pos_down]
    · exact .intro trivial hcontainer.located (by simp [Expr.parts, hcontainer, hindex])
  sliceRest := fun {container start} hcontainer hstart => by
    have hstep : InLine strict k low b 18 0 0 (Expr.downIf k) (Expr.SoundIf low)
        (do if ← Parse.accept (.symbol .colon) then Grammar.slicePart b else pure none)
        (do if ← Parse.accept (.symbol .colon) then Grammar.slicePart b' else pure none) :=
      ⟨.accept rfl ih.slicePart.tracks
        (.pure (Expr.downIf_none k).symm Expr.soundIf_none)⟩
    refine ⟨.bind (.expect rfl) fun _ _ => ?_⟩
    refine .bind ih.slicePart.tracks fun stop hstop => ?_
    refine .bind hstep.tracks fun step hstep => ?_
    refine .bind (.expect rfl) fun _ _ => .pure ?_ ?_
    · rw [Expr.down, Expr.pos_down]
    refine .intro trivial hcontainer.located fun e he => ?_
    simp only [Expr.parts, List.cons_append, List.mem_cons, List.mem_append,
      Option.mem_toList] at he
    rcases he with rfl | (he | he) | he
    · exact hcontainer
    · exact hstart e he
    · exact hstop e he
    · exact hstep e he
  slicePart := by
    refine ⟨.bind (.check _) fun _ _ => .bind (.check _) fun _ _ => .ite (fun _ => ?_) fun _ => ?_⟩
    · exact .pure (Expr.downIf_none k).symm Expr.soundIf_none
    · exact .bind ih.expr.tracks fun part h => .pure (by rw [Expr.downIf_some]) h.soundIf
  arguments := fun {args keywords} h => by
    rw [Grammar.arguments, Grammar.arguments]
    refine ⟨.bind (.check _) fun closed _ => .bind (.check _) fun ended _ => ?_⟩
    refine .ite (fun _ => .pure rfl h) fun _ => .bind .here fun pos _ => ?_
    refine .bind keywordName_inLine.reads fun found _ => ?_
    cases found with
    | some name =>
      dsimp only [id]
      rw [Keyword.any_name_down]
      refine .ite (fun _ => .failAt) fun hname => ?_
      refine .bind ih.expr.tracks fun value hvalue => ?_
      have hmap : keywords.map (Keyword.down k) ++ [Keyword.mk name (value.down k)] =
          (keywords ++ [Keyword.mk name value]).map (Keyword.down k) := by
        rw [List.map_append, List.map_singleton, Keyword.down]
      have hmore : Expr.SoundArgs low args (keywords ++ [⟨name, value⟩]) :=
        h.snoc (eq_false_of_ne_true hname) hvalue
      rw [hmap]
      exact .accept rfl (ih.arguments hmore).tracks (.pure rfl hmore)
    | none =>
      dsimp only [id]
      rw [List.isEmpty_map]
      refine .ite (fun _ => .bind ih.expr.tracks fun arg harg => ?_) fun _ => .failAt
      have hmap : args.map (Expr.down k) ++ [arg.down k] = (args ++ [arg]).map (Expr.down k) := by
        rw [List.map_append, List.map_singleton]
      rw [hmap]
      exact .accept rfl (ih.arguments (h.arg harg)).tracks (.pure rfl (h.arg harg))

theorem ExprTracks.fieldValue (hseam : ending.seam = none) {b₁ : Nat}
    (hle : b₁ + 17 ≤ b + need) : Tracks strict b₁ need 32 (Abreast k low ending true level depth)
      (Abreast k low ending true level depth) (Expr.down k) (Expr.Sound low) (Grammar.fieldValue b)
      (Grammar.fieldValue b') := by
  refine .bind ih.expr.tracks fun value hvalue => .bind .expectLineEnd fun _ _ => ?_
  refine Tracks.mono ?_ fun hR => hR.inLine_of_not_seam hseam
  exact .bind (.check _) fun _ _ => .ite (fun _ => .pure rfl hvalue) fun _ => .unexpected

theorem LiteralTracks.succ (hb : b ≤ b') (hstrict : strict → k = 0) :
    LiteralTracks strict k low (b + 1) (b' + 1) where
  primary := by
    rw [Grammar.primary, Grammar.primary]
    refine ⟨.peek fun t ht => ?_⟩
    have hleaf {e : Expr} (hpos : e.pos = t.pos) (hrule : e.Admissible) (hparts : e.parts = []) :
        e.Sound low := .intro hrule (hpos ▸ ht) (by simp [hparts])
    dsimp only
    rw [Token.kind_down, Token.pos_down]
    split
    next n hkind => exact .take hkind rfl (.pure (by rw [Expr.down]) (hleaf rfl trivial rfl))
    next x hkind => exact .take hkind rfl (.pure (by rw [Expr.down]) (hleaf rfl trivial rfl))
    next text hkind =>
      refine .take hkind rfl ?_
      refine .bind (adjacentStrings_inLine hb text).tracks fun text _ => ?_
      exact .pure (by rw [Expr.down, id]) (hleaf rfl trivial rfl)
    next text hkind =>
      have hdemand : t.demand = 32 * (text.length + 1) := by rw [Token.demand, hkind]
      have hpieces := demand_split text.toList
      rw [String.length_toList] at hpieces
      refine .takeAs hkind rfl (Nat.le_of_eq hdemand.symm) ?_
      rw [show 32 - 32 * (text.length + 1) = 0 by omega]
      refine .bind (ih.fstringParts _ ht).tracks fun parts hparts => ?_
      split
      · exact .failAt
      · refine .pure (by rw [Expr.down]) (.intro trivial ht fun e he => ?_)
        obtain ⟨part, hpart, hvalue⟩ := List.mem_filterMap.1 he
        exact hparts part hpart e hvalue
    next hkind => exact .take hkind rfl (.pure (by rw [Expr.down]) (hleaf rfl trivial rfl))
    next hkind => exact .take hkind rfl (.pure (by rw [Expr.down]) (hleaf rfl trivial rfl))
    next hkind => exact .take hkind rfl (.pure (by rw [Expr.down]) (hleaf rfl trivial rfl))
    next name hkind => exact .take hkind rfl (.pure (by rw [Expr.down]) (hleaf rfl trivial rfl))
    next hkind => exact .take hkind rfl (ih.parenthesized ht).tracks
    next hkind => exact .take hkind rfl (ih.listLiteral ht).tracks
    next hkind => exact .take hkind rfl (ih.dictLiteral ht).tracks
    · exact .unexpected
  parenthesized := fun {pos} hpos => by
    refine ⟨.accept rfl (.pure ?_ ?_) (.bind ih.expr.tracks fun first hfirst => ?_)⟩
    · rw [Expr.down, List.map_nil]
    · exact .intro trivial hpos (List.forall_mem_nil _)
    refine .bind (.check _) fun several _ => .ite (fun _ => ?_) fun _ => ?_
    · refine .bind (ih.moreItems _).tracks fun rest hrest => ?_
      refine .bind (.expect rfl) fun _ _ => ?_
      exact .pure (by rw [Expr.down, List.map_cons]) (Expr.sound_list hpos hfirst hrest)
    · exact .bind (.expect rfl) fun _ _ => .pure rfl hfirst
  moreItems := fun isClosing => by
    have hnil (e : Expr) (he : e ∈ []) : e.Sound low := List.forall_mem_nil _ e he
    refine ⟨.accept rfl (.peek fun t _ => .at_front ?_) (.pure rfl hnil)⟩
    rw [Token.kind_down]
    refine .ite (fun _ => .pure rfl hnil) fun _ => ?_
    refine .bind ih.expr.tracks fun item hitem => ?_
    refine .bind (ih.moreItems isClosing).tracks fun rest hrest => .pure rfl ?_
    exact List.forall_mem_cons.2 ⟨hitem, hrest⟩
  listLiteral := fun {pos} hpos => by
    refine ⟨.accept rfl (.pure ?_ ?_) (.bind ih.expr.tracks fun first hfirst => ?_)⟩
    · rw [Expr.down, List.map_nil]
    · exact .intro trivial hpos (List.forall_mem_nil _)
    refine .bind (.check _) fun several _ => .ite (fun _ => ?_) fun _ => ?_
    · refine .bind ih.clause.tracks fun clause h => .bind (.expect rfl) fun _ _ => ?_
      refine .pure (by rw [Expr.down]) (.intro h.target hpos ?_)
      exact List.forall_mem_cons.2 ⟨hfirst, h.parts⟩
    · refine .bind (ih.moreItems _).tracks fun rest hrest => ?_
      refine .bind (.expect rfl) fun _ _ => ?_
      exact .pure (by rw [Expr.down, List.map_cons]) (Expr.sound_list hpos hfirst hrest)
  dictLiteral := fun {pos} hpos => by
    refine ⟨.accept rfl (.pure ?_ ?_) (.bind ih.dictEntry.tracks
      fun first hfirst => ?_)⟩
    · rw [Expr.down, List.map_nil]
    · exact .intro trivial hpos (List.forall_mem_nil _)
    obtain ⟨key, value⟩ := first
    refine .bind (.check _) fun several _ => .ite (fun _ => ?_) fun _ => ?_
    · refine .bind ih.clause.tracks fun clause h => .bind (.expect rfl) fun _ _ => ?_
      refine .pure (by rw [Expr.down, DictEntry.down]) (.intro h.target hpos ?_)
      exact List.forall_mem_cons.2 ⟨hfirst.1, List.forall_mem_cons.2 ⟨hfirst.2, h.parts⟩⟩
    refine .bind ih.moreEntries.tracks fun rest hrest => ?_
    refine .bind (.expect rfl) fun _ _ => ?_
    refine .pure (by rw [Expr.down, List.map_cons]) (.intro trivial hpos ?_)
    have hall := List.forall_mem_cons.2 ⟨hfirst, hrest⟩
    rw [Expr.parts, List.forall_mem_append, List.forall_mem_map, List.forall_mem_map]
    exact ⟨fun e he => (hall e he).1, fun e he => (hall e he).2⟩
  dictEntry := by
    refine ⟨.bind ih.expr.tracks fun key hkey => .bind (.expect rfl) fun _ _ => ?_⟩
    refine .bind ih.expr.tracks fun value hvalue => .pure ?_ ⟨hkey, hvalue⟩
    rw [DictEntry.down]
  moreEntries := by
    have hnil (e : DictEntry) (he : e ∈ []) : e.Sound low := List.forall_mem_nil _ e he
    refine ⟨.accept rfl (.bind (.check _) fun last _ => ?_) (.pure rfl hnil)⟩
    refine .ite (fun _ => .pure rfl hnil) fun _ => ?_
    refine .bind ih.dictEntry.tracks fun entry hentry => ?_
    refine .bind ih.moreEntries.tracks fun rest hrest => .pure rfl ?_
    exact List.forall_mem_cons.2 ⟨hentry, hrest⟩
  clause := by
    have hheight := height_le .or
    refine ⟨.bind (.expect rfl) fun _ _ => ?_⟩
    refine .bind ((loopTarget_inLine hb).1.tracks) fun target ht => ?_
    refine .bind (.expect rfl) fun _ _ => .bind (ih.chain _).tracks fun iterable hi => ?_
    refine .accept rfl (.bind (ih.chain _).tracks fun condition hc => .pure ?_ ?_)
      (.pure ?_ ?_)
    · rw [Clause.down, Expr.downIf_some]
    · exact ⟨ht, hi, hc.soundIf⟩
    · rw [Clause.down, Expr.downIf_none]
    · exact ⟨ht, hi, Expr.soundIf_none⟩
  fstringParts := fun {pos} pieces hpos => by
    rcases pieces with _ | ⟨s | source, rest⟩
    · exact ⟨.pure rfl (List.forall_mem_nil _)⟩
    · have hdemand : demands pieceDemand (.text s :: rest) = 1 + demands pieceDemand rest := rfl
      refine ⟨.bind (ih.fstringParts rest hpos).tracks fun parts hparts => .pure ?_ ?_⟩
      · rw [List.map_cons, FStringPart.down]
      · exact List.forall_mem_cons.2 ⟨Expr.soundIf_none, hparts⟩
    have hdemand : demands pieceDemand (.field source :: rest) =
      32 * (source.length + 1) + demands pieceDemand rest := rfl
    have hsource := length_source_split source
    refine ⟨.bind (ih.fstringField _ hpos).tracks fun part hpart => ?_⟩
    refine .bind (ih.fstringParts rest hpos).tracks fun parts hparts => .pure rfl ?_
    exact List.forall_mem_cons.2 ⟨hpart, hparts⟩
  -- What the tokens of a field demand is paid for by its characters.
  fstringField := fun {pos} field hpos => by
    rw [fstringField_eq, fstringField_eq]
    refine ⟨.bind (conversion_inLine pos _).reads fun repr _ => .ite (fun _ => .failAt) fun _ => ?_⟩
    refine .bind (fieldTokens_inLine hstrict pos _).reads fun inner hinner => ?_
    have hdemands := demands_of_tokenizeAt hinner
    have htrim := length_trim Text.isSpace field.source
    obtain ⟨body, p, rfl, hbody⟩ := tokenizeAt_eof hinner
    have hline : ∀ t ∈ body ++ [(⟨.eof, p⟩ : Token)], low ≤ t.pos.line :=
      fun t ht => Nat.le_trans hpos (tokenizeAt_line_le hinner t ht)
    have hwhole := Abreast.whole k body p true 0 0 False.elim hbody hline
    have hle : b + 1 + 17 ≤ b + 18 := by omega
    refine .bind (.within hwhole (ih.fieldValue rfl hle) (by omega)) fun value hvalue => ?_
    exact .pure (by rw [FStringPart.down, id]) hvalue.soundIf

end

/-- A reader of expressions tracks itself, also with a larger bound. -/
theorem exprTracks (hstrict : strict → k = 0) :
    ∀ {b b' : Nat}, b ≤ b' → ExprTracks strict k low b b'
  | 0, _, _ => by
    refine ⟨?_, ?_, ?_⟩ <;> constructor
    case operand => exact fun l => .exhausted (by cases l <;> decide)
    all_goals intros; exact .exhausted (by omega)
  | b + 1, b' + 1, h => by
    have hb := Nat.le_of_succ_le_succ h
    have ih : ExprTracks strict k low b b' := exprTracks hstrict hb
    exact ⟨.succ ih, .succ ih, .succ ih hb hstrict⟩

end Grammar

end Scripting
