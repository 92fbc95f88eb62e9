/-
# Layout tokens tell the margins

What `indent` and `dedent` tokens say about a text is told by the margins of its lines alone. The
floors of some widths are, for each of them, the least from there on. The open blocks are the
distinct positive floors of the lines so far (`Enters.describes`). A line that is less deep than a
floor without being one itself is the error; it is taken for a block of its own, so what holds of
the blocks holds behind it as well.

From this follow where a text is at fault for its margins (`Finds.unmatched`), how many blocks are
open where a line begins (`Finds.nesting`), that blocks are opened before they are closed
(`Finds.balanced`), and that nothing of this happens in brackets (`Finds.outside`).
-/
import Mathlib.Data.Finset.Card
import Scripting.Proofs.Token.Lexemes

namespace Scripting

variable {line : ContentLine} {blocks ws blocks' : List Nat} {lexeme : Lexeme} {found : List Token}
  {c : Cursor} {wrong : List Diagnostic}
  {out : List Nat} {ps : List Lexeme} {ts : List Token} {ds : List Diagnostic}

/-! ### Widths -/

/-- For each of some widths, the least from there on. -/
def floors : List Nat → List Nat
  | [] => []
  | w :: ws => ws.foldl min w :: floors ws

/-- The number of blocks that lines of some widths leave open: their distinct positive floors. -/
def levels (ws : List Nat) : Nat := ((floors ws).toFinset.filter (0 < ·)).card

/-- A line that is less deep than a floor of the lines before it and is none itself. -/
def Unmatched (ws : List Nat) (w : Nat) : Prop := (∃ m ∈ 0 :: floors ws, w < m) ∧ w ∉ 0 :: floors ws

instance (ws : List Nat) (w : Nat) : Decidable (Unmatched ws w) :=
  inferInstanceAs (Decidable (_ ∧ _))

theorem floors_append (w : Nat) : ∀ ws : List Nat,
    floors (ws ++ [w]) = (floors ws).map (min · w) ++ [w]
  | [] => rfl
  | v :: ws => by
    rw [List.cons_append, floors, floors_append w ws, List.foldl_append]
    rfl

theorem mem_floors_append {w x : Nat} : x ∈ floors (ws ++ [w]) ↔ x = w ∨ x < w ∧ x ∈ floors ws := by
  rw [floors_append, List.mem_append, List.mem_map, List.mem_singleton]
  constructor
  · rintro (⟨m, hm, rfl⟩ | rfl)
    · rcases Nat.lt_or_ge m w with hlt | hge
      · rw [Nat.min_eq_left hlt.le]
        exact .inr ⟨hlt, hm⟩
      · exact .inl (Nat.min_eq_right hge)
    · exact .inl rfl
  · rintro (rfl | ⟨hlt, hx⟩)
    · exact .inr rfl
    · exact .inl ⟨x, hx, Nat.min_eq_left hlt.le⟩

theorem le_headD (h : blocks.Pairwise (· > ·)) {x : Nat} (hx : x ∈ blocks) :
    x ≤ blocks.headD 0 := by
  cases blocks with
  | nil => cases hx
  | cons b blocks =>
    rcases List.mem_cons.1 hx with rfl | hx
    · exact Nat.le_refl _
    · exact (List.rel_of_pairwise_cons h hx).le

theorem mem_of_headD {w : Nat} (h : blocks.headD 0 = w) (hw : 0 < w) : w ∈ blocks := by
  cases blocks with
  | nil => exact absurd h hw.ne
  | cons b blocks => exact h ▸ .head _

/-- Blocks that are the positive floors of some widths, the deepest first. -/
structure Describes (ws blocks : List Nat) : Prop where
  sorted : blocks.Pairwise (· > ·)
  mem : ∀ x, x ∈ blocks ↔ 0 < x ∧ x ∈ floors ws

namespace Describes

variable {w : Nat}

theorem nil : Describes [] [] := ⟨.nil, by simp [floors]⟩

theorem length_eq (h : Describes ws blocks) : blocks.length = levels ws := by
  have hset : (floors ws).toFinset.filter (0 < ·) = blocks.toFinset := by
    ext x
    simp [h.mem, and_comm]
  have hnodup : blocks.Nodup := h.sorted.imp fun hgt => (Nat.ne_of_lt hgt).symm
  rw [levels, hset, List.toFinset_card_of_nodup hnodup]

theorem push (hsorted : blocks.Pairwise (· > ·))
    (hmem : ∀ x, x ∈ blocks ↔ 0 < x ∧ x < w ∧ x ∈ floors ws) (hw : 0 < w) :
    Describes (ws ++ [w]) (w :: blocks) where
  sorted := List.pairwise_cons.2 ⟨fun x hx => ((hmem x).1 hx).2.1, hsorted⟩
  mem x := by
    rw [List.mem_cons, mem_floors_append, hmem]
    constructor
    · rintro (rfl | ⟨hx, hlt, hfloor⟩)
      · exact ⟨hw, .inl rfl⟩
      · exact ⟨hx, .inr ⟨hlt, hfloor⟩⟩
    · rintro ⟨hx, rfl | ⟨hlt, hfloor⟩⟩
      · exact .inl rfl
      · exact .inr ⟨hx, hlt, hfloor⟩

theorem mem_kept (h : Describes ws blocks) {kept : List Nat} {closed : Nat}
    (hclose : LayoutState.closeBlocks w blocks = (kept, closed)) :
    kept.Pairwise (· > ·) ∧ kept.headD 0 ≤ w ∧ ∀ x, x ∈ kept ↔ 0 < x ∧ x ≤ w ∧ x ∈ floors ws := by
  obtain ⟨deeper, rfl, -, hdeeper, hhead⟩ := closeBlocks_spec hclose
  have hsorted : kept.Pairwise (· > ·) := (List.pairwise_append.1 h.sorted).2.1
  refine ⟨hsorted, hhead, fun x => ?_⟩
  have hmem := h.mem x
  rw [List.mem_append] at hmem
  constructor
  · intro hx
    obtain ⟨hpos, hfloor⟩ := hmem.1 (.inr hx)
    exact ⟨hpos, (le_headD hsorted hx).trans hhead, hfloor⟩
  rintro ⟨hpos, hle, hfloor⟩
  rcases hmem.2 ⟨hpos, hfloor⟩ with hx | hx
  · exact absurd (hdeeper x hx) (Nat.not_lt.2 hle)
  · exact hx

end Describes

/-- Behind a line the blocks are the floors of the lines up to it. -/
theorem Enters.describes (h : Enters blocks line found wrong blocks') (hd : Describes ws blocks) :
    Describes (ws ++ [line.width]) blocks' := by
  cases h with
  | deeper hwidth =>
    refine .push hd.sorted (fun x => ⟨fun hx => ?_, fun hx => (hd.mem x).2 ⟨hx.1, hx.2.2⟩⟩)
      (Nat.zero_lt_of_lt hwidth)
    obtain ⟨hpos, hfloor⟩ := (hd.mem x).1 hx
    exact ⟨hpos, Nat.lt_of_le_of_lt (le_headD hd.sorted hx) hwidth, hfloor⟩
  | level _ hclose hkept =>
    obtain ⟨hsorted, -, hmem⟩ := hd.mem_kept hclose
    refine ⟨hsorted, fun x => ⟨fun hx => ?_, ?_⟩⟩
    · obtain ⟨hpos, hle, hfloor⟩ := (hmem x).1 hx
      rcases Nat.lt_or_eq_of_le hle with hlt | heq
      · exact ⟨hpos, mem_floors_append.2 (.inr ⟨hlt, hfloor⟩)⟩
      · exact ⟨hpos, mem_floors_append.2 (.inl heq)⟩
    rintro ⟨hpos, hfloor⟩
    rcases mem_floors_append.1 hfloor with rfl | ⟨hlt, hfloor⟩
    · exact mem_of_headD hkept hpos
    · exact (hmem x).2 ⟨hpos, hlt.le, hfloor⟩
  | between _ hclose hkept =>
    obtain ⟨hsorted, hhead, hmem⟩ := hd.mem_kept hclose
    have hlt := Nat.lt_of_le_of_ne hhead hkept
    refine .push hsorted (fun x => ⟨fun hx => ?_, fun hx => (hmem x).2 ⟨hx.1, hx.2.1.le, hx.2.2⟩⟩)
      (Nat.zero_lt_of_lt hlt)
    obtain ⟨hpos, -, hfloor⟩ := (hmem x).1 hx
    exact ⟨hpos, Nat.lt_of_le_of_lt (le_headD hsorted hx) hlt, hfloor⟩

theorem Enters.unmatched (h : Enters blocks line found wrong blocks') (hd : Describes ws blocks) :
    wrong = if Unmatched ws line.width then [⟨.unmatchedDedent, line.pos⟩] else [] := by
  cases h with
  | deeper hwidth =>
    refine (if_neg ?_).symm
    rintro ⟨⟨m, hm, hlt⟩, -⟩
    have hmem := (hd.mem m).2 ⟨Nat.zero_lt_of_lt hlt, (List.mem_cons.1 hm).resolve_left (by omega)⟩
    have hle := le_headD hd.sorted hmem
    omega
  | level _ hclose hkept =>
    obtain ⟨-, -, hmem⟩ := hd.mem_kept hclose
    refine (if_neg ?_).symm
    rintro ⟨-, hnot⟩
    rcases Nat.eq_zero_or_pos line.width with hzero | hpos
    · exact hnot (hzero ▸ .head _)
    · exact hnot (.tail _ ((hmem _).1 (mem_of_headD hkept hpos)).2.2)
  | between hwidth hclose hkept =>
    obtain ⟨hsorted, hhead, hmem⟩ := hd.mem_kept hclose
    have hlt := Nat.lt_of_le_of_ne hhead hkept
    have hnot : line.width ∉ floors ws := by
      intro hfloor
      have hle := le_headD hsorted ((hmem _).2 ⟨Nat.zero_lt_of_lt hlt, Nat.le_refl _, hfloor⟩)
      omega
    have hdeepest : blocks.headD 0 ∈ floors ws :=
      ((hd.mem _).1 (mem_of_headD rfl (by omega))).2
    refine (if_pos ⟨⟨blocks.headD 0, .tail _ hdeepest, ?_⟩, ?_⟩).symm
    · have hne : blocks.headD 0 ≠ line.width := fun heq => hnot (heq ▸ hdeepest)
      omega
    · rw [List.mem_cons, not_or]
      exact ⟨by omega, hnot⟩

namespace Token.Kind

def isIndent : Token.Kind → Bool
  | .indent => true
  | _ => false

def isDedent : Token.Kind → Bool
  | .dedent => true
  | _ => false

theorem isLayout_of_isSolid {kind : Token.Kind} (h : kind.isSolid = true) :
    kind.isLayout = false ∧ kind.isIndent = false ∧ kind.isDedent = false := by
  cases kind <;> first | exact ⟨rfl, rfl, rfl⟩ | cases h

end Token.Kind

/-! ### Lines at fault -/

/-- The lines that fit no line before them, with the widths of the lines before all of these. -/
def unmatchedLines (ws : List Nat) : List ContentLine → List ContentLine
  | [] => []
  | line :: lines =>
    (if Unmatched ws line.width then [line] else []) ++ unmatchedLines (ws ++ [line.width]) lines

theorem contentLines_of_line? {lexemes : List Lexeme} (h : c.line? lexeme = some line) :
    contentLines c (lexeme :: lexemes) =
      line :: contentLines { c with margin := none } (lexeme :: lexemes) := by
  obtain ⟨hcontent, -⟩ := Cursor.isContent_of_line? h
  rw [contentLines, contentLines, h]
  simp [Cursor.line?, Cursor.after_of_isContent hcontent c none]

theorem contentLines_of_none {lexemes : List Lexeme} (h : c.line? lexeme = none) :
    contentLines c (lexeme :: lexemes) = contentLines (c.after lexeme) lexemes := by
  rw [contentLines, h]
  rfl

/-- The complaints about margins are about the lines that fit no line before them. -/
theorem Finds.unmatched (h : Finds c blocks ps ts ds out) (hsound : ∀ p ∈ ps, p.Sound)
    (hd : Describes ws blocks) : ds.filter (·.code == .L004) =
      (unmatchedLines ws (contentLines c ps)).map fun line => ⟨.unmatchedDedent, line.pos⟩ := by
  induction h generalizing ws with
  | nil => rfl
  | enter hline henter _ ih =>
    rw [contentLines_of_line? hline, unmatchedLines, List.filter_append, List.map_append,
      ih hsound (henter.describes hd), henter.unmatched hd]
    congr 1
    split <;> rfl
  | @pass c _ _ lexeme ps _ _ hline _ ih =>
    obtain ⟨hlexeme, hsound⟩ := List.forall_mem_cons.1 hsound
    have hown : (c.complaints lexeme).filter (·.code == .L004) = [] := by
      cases lexeme with
      | broken complaint offset text => simp [Cursor.complaints, Diagnostic.code, hlexeme.2]
      | _ => rfl
    rw [contentLines_of_none hline, List.filter_append, hown, ih hsound hd, List.nil_append]

/-! ### Opening and closing -/

def indents (ts : List Token) : Nat := ts.countP (·.kind.isIndent)

def dedents (ts : List Token) : Nat := ts.countP (·.kind.isDedent)

theorem indents_append (ts us : List Token) : indents (ts ++ us) = indents ts + indents us :=
  List.countP_append

theorem dedents_append (ts us : List Token) : dedents (ts ++ us) = dedents ts + dedents us :=
  List.countP_append

theorem indents_replicate (n : Nat) (p : Position) :
    indents (List.replicate n ⟨.dedent, p⟩) = 0 := by
  simp [indents, List.countP_replicate, Token.Kind.isIndent]

theorem dedents_replicate (n : Nat) (p : Position) :
    dedents (List.replicate n ⟨.dedent, p⟩) = n := by
  simp [dedents, List.countP_replicate, Token.Kind.isDedent]

/-- Tokens that lead from some number of open blocks to another and close none that is not open. -/
structure Balanced (before after : Nat) (ts : List Token) : Prop where
  covered : ∀ pre, pre <+: ts → dedents pre ≤ indents pre + before
  total : indents ts + before = dedents ts + after

namespace Balanced

variable {before mid after : Nat} {ts us : List Token}

theorem of_le (hle : dedents ts ≤ before) (htotal : indents ts + before = dedents ts + after) :
    Balanced before after ts where
  covered pre hpre := by
    have hsub : dedents pre ≤ dedents ts := hpre.sublist.countP_le
    omega
  total := htotal

theorem append (h : Balanced before mid ts) (h' : Balanced mid after us) :
    Balanced before after (ts ++ us) where
  covered pre hpre := by
    rcases List.prefix_or_prefix_of_prefix hpre (List.prefix_append ts us) with hpre' | ⟨more, rfl⟩
    · exact h.covered pre hpre'
    have hmore := h'.covered more ((List.prefix_append_right_inj ts).1 hpre)
    have htotal := h.total
    rw [dedents_append, indents_append]
    omega
  total := by
    have htotal := h.total
    have htotal' := h'.total
    rw [dedents_append, indents_append]
    omega

end Balanced

theorem Enters.balanced (h : Enters blocks line found [] blocks') :
    Balanced blocks.length blocks'.length found := by
  cases h with
  | deeper =>
    refine .of_le (Nat.zero_le _) ?_
    change 1 + blocks.length = 0 + (blocks.length + 1)
    omega
  | @level kept closed _ hclose _ =>
    obtain ⟨deeper, rfl, rfl, -⟩ := closeBlocks_spec hclose
    rw [List.length_append]
    refine .of_le ?_ ?_
    · rw [dedents_replicate]
      exact Nat.le_add_right _ _
    · rw [dedents_replicate, indents_replicate, Nat.zero_add]

theorem Cursor.plain_tokens (h : lexeme.Sound) :
    indents (c.tokens lexeme) = 0 ∧ dedents (c.tokens lexeme) = 0 := by
  cases lexeme with
  | blank | comment | continued | broken => exact ⟨rfl, rfl⟩
  | newline =>
    rw [Cursor.tokens]
    split <;> exact ⟨rfl, rfl⟩
  | token kind text =>
    obtain ⟨first, rest, -, hscan⟩ := h
    obtain ⟨-, hindent, hdedent⟩ := Token.Kind.isLayout_of_isSolid (scanToken_isSolid hscan)
    simp [indents, dedents, Cursor.tokens, hindent, hdedent]

theorem Finds.balanced (h : Finds c blocks ps ts ds out) (hds : ds = [])
    (hsound : ∀ p ∈ ps, p.Sound) :
    Balanced blocks.length out.length ts := by
  induction h with
  | nil => exact .of_le (Nat.zero_le _) rfl
  | enter _ henter _ ih =>
    obtain ⟨rfl, rfl⟩ := List.append_eq_nil_iff.1 hds
    exact henter.balanced.append (ih rfl hsound)
  | pass _ _ ih =>
    obtain ⟨-, rfl⟩ := List.append_eq_nil_iff.1 hds
    obtain ⟨hlexeme, hsound⟩ := List.forall_mem_cons.1 hsound
    obtain ⟨hindents, hdedents⟩ := Cursor.plain_tokens hlexeme
    refine .append (.of_le ?_ ?_) (ih rfl hsound)
    · rw [hdedents]
      exact Nat.zero_le _
    · rw [hindents, hdedents]

theorem closing_balanced (s : LayoutState) (found : List Token) :
    Balanced s.blocks.length 0 (s.closing found.getLast?) := by
  have hend : indents (s.lineEnd found.getLast?) = 0 ∧ dedents (s.lineEnd found.getLast?) = 0 := by
    rcases s.lineEnd_cases found with ⟨hend, -⟩ | hend <;> rw [hend] <;> exact ⟨rfl, rfl⟩
  have hcounts : indents (s.closing found.getLast?) = 0 ∧
      dedents (s.closing found.getLast?) = s.blocks.length := by
    rw [s.closing_eq, indents_append, indents_append, dedents_append, dedents_append, hend.1,
      hend.2, indents_replicate, dedents_replicate]
    exact ⟨rfl, Nat.zero_add _⟩
  exact .of_le hcounts.2.le (by rw [hcounts.1, hcounts.2, Nat.zero_add]; rfl)

/-! ### Brackets -/

/-- Tokens with no layout token in brackets, but for those at the end of the text. -/
def Outside (last : Position) (depth : Nat) : List Token → Prop
  | [] => True
  | t :: ts => (t.kind.isLayout = true → depth = 0 ∨ t.pos = last) ∧
    Outside last (t.kind.depthBehind depth) ts

/-- The number of open brackets behind some tokens. -/
def bracketDepth (depth : Nat) (ts : List Token) : Nat :=
  ts.foldl (fun depth t => t.kind.depthBehind depth) depth

namespace Outside

variable {last : Position} {ts us : List Token}

theorem append : ∀ {ts : List Token} {depth : Nat}, Outside last depth ts →
    Outside last (bracketDepth depth ts) us → Outside last depth (ts ++ us)
  | [], _, _, h' => h'
  | _ :: _, _, h, h' => ⟨h.1, append h.2 h'⟩

theorem of_pos : ∀ {ts : List Token} {depth : Nat}, (∀ t ∈ ts, t.pos = last) → Outside last depth ts
  | [], _, _ => trivial
  | t :: _, _, h => ⟨fun _ => .inr (h t (.head _)),
    of_pos fun t ht => h t (.tail _ ht)⟩

theorem depth_eq : ∀ {before after : List Token} {t : Token} {depth : Nat},
    Outside last depth (before ++ t :: after) → t.kind.isLayout = true →
    bracketDepth depth before = 0 ∨ t.pos = last
  | [], _, _, _, h, ht => h.1 ht
  | _ :: before, _, _, _, h, ht => (depth_eq h.2 ht : bracketDepth _ before = 0 ∨ _)

end Outside

/-- A line counts only if it begins outside brackets. -/
def Cursor.Sound (c : Cursor) : Prop := c.margin.isSome = true → c.depth = 0

theorem Cursor.Sound.after (h : c.Sound) (lexeme : Lexeme) : (c.after lexeme).Sound := by
  cases lexeme with
  | blank b =>
    intro hmargin
    exact h (by simpa [Cursor.after] using hmargin)
  | comment => exact h
  | newline =>
    intro hmargin
    simp only [Cursor.after] at hmargin ⊢
    split at hmargin
    next hzero => exact hzero
    · cases hmargin
  | continued | token | broken =>
    intro hmargin
    cases hmargin

theorem Enters.outside (h : Enters blocks line found wrong blocks') (last : Position) :
    Outside last 0 found ∧ bracketDepth 0 found = 0 := by
  have hdedents (closed : Nat) : Outside last 0 (List.replicate closed ⟨.dedent, line.pos⟩) ∧
      bracketDepth 0 (List.replicate closed ⟨.dedent, line.pos⟩) = 0 := by
    induction closed with
    | zero => exact ⟨trivial, rfl⟩
    | succ closed ih => exact ⟨⟨fun _ => .inl rfl, ih.1⟩, ih.2⟩
  cases h with
  | deeper => exact ⟨⟨fun _ => .inl rfl, trivial⟩, rfl⟩
  | level | between => exact hdedents _

theorem Cursor.outside_tokens (c : Cursor) (h : lexeme.Sound) (last : Position) :
    Outside last c.depth (c.tokens lexeme) ∧
    bracketDepth c.depth (c.tokens lexeme) = (c.after lexeme).depth := by
  cases lexeme with
  | blank | comment | continued | broken => exact ⟨trivial, rfl⟩
  | newline =>
    rw [Cursor.tokens]
    split
    next hzero => exact ⟨⟨fun _ => .inl hzero.2, trivial⟩, rfl⟩
    · exact ⟨trivial, rfl⟩
  | token kind text =>
    obtain ⟨first, rest, -, hscan⟩ := h
    obtain ⟨hplain, -⟩ := Token.Kind.isLayout_of_isSolid (scanToken_isSolid hscan)
    exact ⟨⟨fun hlayout => (Bool.false_ne_true (hplain.symm.trans hlayout)).elim, trivial⟩, rfl⟩

theorem Finds.outside (h : Finds c blocks ps ts ds out) (hsound : ∀ p ∈ ps, p.Sound) (hc : c.Sound)
    (last : Position) : Outside last c.depth ts := by
  induction h with
  | nil => exact trivial
  | enter hline henter _ ih =>
    obtain ⟨-, margin, hmargin, -⟩ := Cursor.isContent_of_line? hline
    have hzero := hc (by rw [hmargin]; rfl)
    obtain ⟨hfound, hbehind⟩ := henter.outside last
    rw [hzero]
    refine hfound.append ?_
    rw [hbehind, ← hzero]
    exact ih hsound nofun
  | pass _ _ ih =>
    obtain ⟨hlexeme, hsound⟩ := List.forall_mem_cons.1 hsound
    obtain ⟨hown, hbehind⟩ := Cursor.outside_tokens _ hlexeme last
    refine hown.append ?_
    rw [hbehind]
    exact ih hsound (hc.after _)

/-! ### Nesting -/

namespace Position

def Before (p q : Position) : Prop := p.line < q.line ∨ p.line = q.line ∧ p.column < q.column

instance (p q : Position) : Decidable (p.Before q) := inferInstanceAs (Decidable (_ ∨ _))

theorem Before.trans {p q r : Position} (h : p.Before q) (h' : q.Before r) : p.Before r := by
  unfold Before at h h' ⊢
  omega

theorem not_before_self (p : Position) : ¬ p.Before p := by
  unfold Before
  omega

theorem before_after (p : Position) (c : Char) : p.Before (p.after c) := by
  unfold Before after
  have hsize := c.utf8Size_pos
  split
  · exact .inl (Nat.lt_succ_self _)
  · exact .inr ⟨rfl, by dsimp only; omega⟩

theorem before_advance : ∀ {text : List Char} (p : Position), text ≠ [] → p.Before (p.advance text)
  | [c], p, _ => p.before_after c
  | c :: d :: text, p, _ =>
    (p.before_after c).trans (before_advance (p.after c) (List.cons_ne_nil d text))

theorem not_advance_before (p : Position) (text : List Char) : ¬ (p.advance text).Before p := by
  intro h
  cases text with
  | nil => exact p.not_before_self h
  | cons c text => exact p.not_before_self ((p.before_advance (List.cons_ne_nil c text)).trans h)

end Position

def tokensUpTo (p : Position) (ts : List Token) : List Token := ts.filter fun t => ¬ p.Before t.pos

section UpTo

variable {p : Position} {ts us : List Token}

theorem tokensUpTo_append : tokensUpTo p (ts ++ us) = tokensUpTo p ts ++ tokensUpTo p us :=
  List.filter_append ..

theorem tokensUpTo_eq_self (h : ∀ t ∈ ts, ¬ p.Before t.pos) : tokensUpTo p ts = ts :=
  List.filter_eq_self.2 fun t ht => decide_eq_true (h t ht)

theorem tokensUpTo_eq_nil (h : ∀ t ∈ ts, p.Before t.pos) : tokensUpTo p ts = [] :=
  List.filter_eq_nil_iff.2 fun t ht hnot => of_decide_eq_true hnot (h t ht)

theorem plain_tokensUpTo (h : indents ts = 0 ∧ dedents ts = 0) :
    indents (tokensUpTo p ts) = 0 ∧ dedents (tokensUpTo p ts) = 0 :=
  ⟨Nat.le_zero.1 (h.1 ▸ List.filter_sublist.countP_le),
    Nat.le_zero.1 (h.2 ▸ List.filter_sublist.countP_le)⟩

end UpTo

theorem contentLines_pos (hsound : ∀ p ∈ ps, p.Sound) : ∀ line ∈ contentLines c ps,
    (∃ read, line.pos = c.pos.advance read) ∧
    line.pos.Before (c.pos.advance (ps.flatMap Lexeme.text)) := by
  induction ps generalizing c with
  | nil => nofun
  | cons lexeme ps ih =>
    obtain ⟨hlexeme, hsound⟩ := List.forall_mem_cons.1 hsound
    intro line hline
    rcases List.mem_append.1 hline with hline | hline
    · obtain ⟨-, margin, -, rfl⟩ := Cursor.isContent_of_line? (Option.mem_toList.1 hline)
      refine ⟨⟨[], rfl⟩, Position.before_advance _ fun hnil => ?_⟩
      exact hlexeme.text_ne_nil (List.append_eq_nil_iff.1 hnil).1
    obtain ⟨⟨read, hread⟩, hbefore⟩ := ih hsound line hline
    refine ⟨⟨lexeme.text ++ read, ?_⟩, ?_⟩
    · rw [hread, Position.advance_append]
      rfl
    · rw [List.flatMap_cons, Position.advance_append]
      exact hbefore

/-- Behind the beginning of a line's content blocks are opened and closed further on only. -/
theorem Finds.plain (h : Finds { c with margin := none } blocks (lexeme :: ps) ts ds out)
    (hsound : ∀ p ∈ lexeme :: ps, p.Sound) :
    indents (tokensUpTo c.pos ts) = 0 ∧ dedents (tokensUpTo c.pos ts) = 0 := by
  obtain ⟨hlexeme, hsound⟩ := List.forall_mem_cons.1 hsound
  cases h with
  | enter hline =>
    obtain ⟨-, margin, hmargin, -⟩ := Cursor.isContent_of_line? hline
    cases hmargin
  | pass _ hnext =>
    have hlater : tokensUpTo c.pos _ = [] := tokensUpTo_eq_nil fun t ht => by
      obtain ⟨read, -, -, -, hread⟩ := hnext.pos hsound t ht
      rw [hread]
      change c.pos.Before ((c.pos.advance lexeme.text).advance read)
      rw [← Position.advance_append]
      exact c.pos.before_advance fun hnil => hlexeme.text_ne_nil (List.append_eq_nil_iff.1 hnil).1
    rw [tokensUpTo_append, hlater, List.append_nil]
    exact plain_tokensUpTo (Cursor.plain_tokens hlexeme)

/-- Where the content of a line begins, as many blocks are open as the lines up to it have
floors. -/
theorem Finds.nesting (h : Finds c blocks ps ts ds out) (hds : ds = [])
    (hsound : ∀ p ∈ ps, p.Sound) (hd : Describes ws blocks) {before after : List ContentLine}
    (hlines : contentLines c ps = before ++ line :: after) :
    indents (tokensUpTo line.pos ts) + blocks.length =
      dedents (tokensUpTo line.pos ts) +
        levels (ws ++ before.map ContentLine.width ++ [line.width]) := by
  induction h generalizing ws before with
  | nil => simp [contentLines] at hlines
  | @enter c blocks blocks' _ lexeme ps first found more _ _ hline henter hnext ih =>
    obtain ⟨rfl, rfl⟩ := List.append_eq_nil_iff.1 hds
    obtain ⟨hlexeme, -⟩ := List.forall_mem_cons.1 hsound
    have hentered := henter.describes hd
    have htotal := henter.balanced.total
    have hpos : first.pos = c.pos := by
      obtain ⟨-, margin, -, rfl⟩ := Cursor.isContent_of_line? hline
      rfl
    rw [contentLines_of_line? hline] at hlines
    rw [tokensUpTo_append, indents_append, dedents_append]
    cases before with
    | nil =>
      obtain ⟨rfl, -⟩ := List.cons.inj hlines
      obtain ⟨hindents, hdedents⟩ := hnext.plain hsound
      rw [← hpos] at hindents hdedents
      have hall : tokensUpTo first.pos found = found := tokensUpTo_eq_self fun t ht => by
        rw [henter.pos t ht]
        exact Position.not_before_self _
      rw [hall, hindents, hdedents, Nat.add_zero, Nat.add_zero, List.map_nil, List.append_nil,
        ← hentered.length_eq]
      exact htotal
    | cons _ before =>
      obtain ⟨rfl, htail⟩ := List.cons.inj hlines
      have hnested := ih rfl hsound hentered htail
      have hall : tokensUpTo line.pos found = found := tokensUpTo_eq_self fun t ht => by
        have hmem : line ∈ contentLines { c with margin := none } (lexeme :: ps) := by
          rw [htail]
          exact List.mem_append_right _ (.head _)
        obtain ⟨⟨read, hread⟩, -⟩ := contentLines_pos hsound line hmem
        rw [henter.pos t ht, hpos, hread]
        exact Position.not_advance_before c.pos read
      rw [hall, List.map_cons, List.append_cons ws]
      omega
  | @pass c _ _ lexeme ps _ _ hline _ ih =>
    obtain ⟨-, rfl⟩ := List.append_eq_nil_iff.1 hds
    obtain ⟨hlexeme, hsound⟩ := List.forall_mem_cons.1 hsound
    rw [contentLines_of_none hline] at hlines
    obtain ⟨hindents, hdedents⟩ := plain_tokensUpTo (p := line.pos) (c.plain_tokens hlexeme)
    rw [tokensUpTo_append, indents_append, dedents_append, hindents, hdedents, Nat.zero_add,
      Nat.zero_add]
    exact ih rfl hsound hd hlines

/-! ### Whole texts -/

/-- The lines of a source text that count for its layout. -/
def linesOf (source : String) : List ContentLine :=
  contentLines (.start .start) (lexemes source.toList)

/-- What is wrong with the tokens of a source text. -/
def lexicalErrors (source : String) : List Diagnostic :=
  match tokenize source with
  | .ok _ => []
  | .error ds => ds

/-- A line that fits none of the lines before it, as every line before it does. -/
def FirstUnmatched (ws : List Nat) (lines : List ContentLine) (line : ContentLine) : Prop :=
  ∃ before after,
    lines = before ++ line :: after ∧ Unmatched (ws ++ before.map (·.width)) line.width ∧
    ∀ earlier l later,
      before = earlier ++ l :: later → ¬ Unmatched (ws ++ earlier.map (·.width)) l.width

theorem firstUnmatched_cons {l : ContentLine} {lines : List ContentLine} :
    FirstUnmatched ws (l :: lines) line ↔ Unmatched ws l.width ∧ line = l ∨
      ¬ Unmatched ws l.width ∧ FirstUnmatched (ws ++ [l.width]) lines line := by
  constructor
  · rintro ⟨before, after, hlines, hline, hearlier⟩
    cases before with
    | nil =>
      obtain ⟨rfl, rfl⟩ := List.cons.inj hlines
      rw [List.map_nil, List.append_nil] at hline
      exact .inl ⟨hline, rfl⟩
    | cons _ before =>
      obtain ⟨rfl, rfl⟩ := List.cons.inj hlines
      have hl := hearlier [] l before rfl
      rw [List.map_nil, List.append_nil] at hl
      rw [List.map_cons, List.append_cons] at hline
      refine .inr ⟨hl, before, after, rfl, hline, fun earlier l' later hbefore => ?_⟩
      have hl' := hearlier (l :: earlier) l' later (by rw [hbefore, List.cons_append])
      rwa [List.map_cons, List.append_cons] at hl'
  rintro (⟨hl, rfl⟩ | ⟨hl, before, after, rfl, hline, hearlier⟩)
  · refine ⟨[], lines, rfl, ?_, fun earlier l later h => ?_⟩
    · rwa [List.map_nil, List.append_nil]
    · simp at h
  refine ⟨l :: before, after, rfl, ?_, fun earlier l' later hbefore => ?_⟩
  · rwa [List.map_cons, List.append_cons]
  cases earlier with
  | nil =>
    obtain ⟨rfl, -⟩ := List.cons.inj hbefore
    rwa [List.map_nil, List.append_nil]
  | cons _ earlier =>
    obtain ⟨rfl, htail⟩ := List.cons.inj hbefore
    rw [List.map_cons, List.append_cons]
    exact hearlier earlier l' later htail

theorem head?_unmatchedLines : ∀ {ws : List Nat} {lines : List ContentLine},
    (unmatchedLines ws lines).head? = some line ↔ FirstUnmatched ws lines line
  | ws, [] => by simp [unmatchedLines, FirstUnmatched]
  | ws, l :: lines => by
    rw [unmatchedLines, firstUnmatched_cons]
    split
    next hl => simp [hl, eq_comm]
    next hl => simp [hl, head?_unmatchedLines]

/-- The layout tokens of a text are those that the widths of its lines call for. If the text has
tokens, the end of the input is the last of them and the only one, blocks are closed only after
they are opened and all of them are, as many are open where a line begins as there are distinct
positive floors of the widths up to it, and within brackets there is no layout token but for those
that close the text. A text has a first unmatched dedent exactly if it has a first line that is
less deep than a floor of the lines before it and is none of these, and there it is. -/
theorem tokenize_layout (source : String) :
    (∀ ts, tokenize source = .ok ts →
      (∃ body p, ts = body ++ [⟨.eof, p⟩] ∧ ∀ t ∈ body, t.kind ≠ .eof) ∧
      (∀ pre, pre <+: ts → dedents pre ≤ indents pre) ∧ dedents ts = indents ts ∧
      (∀ before line after, linesOf source = before ++ line :: after →
        indents (tokensUpTo line.pos ts) =
          dedents (tokensUpTo line.pos ts) + levels (before.map (·.width) ++ [line.width])) ∧
      ∀ before t after, ts = before ++ t :: after → t.kind.isLayout = true →
        bracketDepth 0 before = 0 ∨ t.pos = Position.start.advance source.toList) ∧
    ∀ d, (lexicalErrors source).find? (·.code == .L004) = some d ↔
      ∃ line, FirstUnmatched [] (linesOf source) line ∧ d = ⟨.unmatchedDedent, line.pos⟩ := by
  obtain ⟨found, wrong, final, hfinds, hpos, htokenize⟩ := tokenizeAt_finds .start source.toList
  have hsound := lexemes_sound source.toList
  refine ⟨fun ts hts => ?_, fun d => ?_⟩
  · have heof := tokenizeAt_eof hts
    rw [tokenize, htokenize] at hts
    split at hts
    next hwrong =>
      cases hts
      rw [List.isEmpty_iff] at hwrong
      have hbalanced := (hfinds.balanced hwrong hsound).append (closing_balanced final found)
      refine ⟨heof, hbalanced.covered, hbalanced.total.symm, fun before line after hlines => ?_,
        fun before t after hsplit ht => ?_⟩
      · have hmem : line ∈ linesOf source := by
          rw [hlines]
          exact List.mem_append_right _ (.head _)
        obtain ⟨-, hbefore⟩ := contentLines_pos hsound line hmem
        have hclosing : tokensUpTo line.pos (final.closing found.getLast?) = [] :=
          tokensUpTo_eq_nil fun t ht => by
            rw [LayoutState.closing_pos final _ t ht, hpos]
            rwa [flatMap_lexemes] at hbefore
        rw [tokensUpTo_append, hclosing, List.append_nil]
        exact hfinds.nesting hwrong hsound .nil hlines
      have houtside := (hfinds.outside hsound (fun _ => rfl) final.pos).append
        (.of_pos (LayoutState.closing_pos final found.getLast?))
      rw [hsplit, hpos] at houtside
      exact houtside.depth_eq ht
    · cases hts
  have herrors : lexicalErrors source = wrong := by
    unfold lexicalErrors
    rw [tokenize, htokenize]
    cases wrong <;> rfl
  rw [herrors, ← List.head?_filter, hfinds.unmatched hsound .nil, List.head?_map,
    Option.map_eq_some_iff]
  exact exists_congr fun line => and_congr head?_unmatchedLines eq_comm

/-- A text with a bracket over two lines, a comment between blocks and a tab as deep as four
spaces, and one whose third line fits neither the first nor the second. -/
theorem tokenize_layout_brackets :
    let source := "if a:\n    f(1,\n  2)\n  # note\n\tb\nc"
    let wrong := "if a:\n    b\n  c\n d"
    (∃ ts, tokenize source = .ok ts ∧ linesOf source =
        [⟨⟨1, 1⟩, 0⟩, ⟨⟨2, 5⟩, 4⟩, ⟨⟨5, 2⟩, 4⟩, ⟨⟨6, 1⟩, 0⟩] ∧ dedents ts = indents ts ∧
      indents (tokensUpTo ⟨5, 2⟩ ts) = dedents (tokensUpTo ⟨5, 2⟩ ts) + 1) ∧
    (lexicalErrors wrong).find? (·.code == .L004) = some ⟨.unmatchedDedent, ⟨3, 3⟩⟩ := by
  intro source wrong
  have hlines : linesOf source = [⟨⟨1, 1⟩, 0⟩, ⟨⟨2, 5⟩, 4⟩] ++ ⟨⟨5, 2⟩, 4⟩ :: [⟨⟨6, 1⟩, 0⟩] := by
    decide +kernel
  have hwrong : linesOf wrong =
      [⟨⟨1, 1⟩, 0⟩, ⟨⟨2, 5⟩, 4⟩, ⟨⟨3, 3⟩, 2⟩, ⟨⟨4, 2⟩, 1⟩] := by decide +kernel
  have hfirst : FirstUnmatched [] (linesOf wrong) ⟨⟨3, 3⟩, 2⟩ := by
    rw [hwrong]
    refine firstUnmatched_cons.2 (.inr ⟨by decide, firstUnmatched_cons.2 (.inr ⟨by decide, ?_⟩)⟩)
    exact firstUnmatched_cons.2 (.inl ⟨by decide, rfl⟩)
  have hok : (tokenize source).isOk = true := by decide +kernel
  constructor
  · cases hts : tokenize source with
    | ok ts =>
      obtain ⟨-, -, htotal, hnesting, -⟩ := (tokenize_layout source).1 ts hts
      exact ⟨ts, rfl, hlines, htotal, hnesting _ _ _ hlines⟩
    | error ds =>
      rw [hts] at hok
      cases hok
  · exact ((tokenize_layout wrong).2 _).2 ⟨_, hfirst, rfl⟩

end Scripting
