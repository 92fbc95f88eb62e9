/-
# Tokens of one text behind another

A text is followed by a newline and another text. Its lexemes stay the same, and they find the
same tokens up to its last line. There the newline ends the line, or the line was empty and there
is none (`Finds.closeLine`). The open blocks are closed by the first line of the second text which
holds something, for it begins at the margin (`Finds.under`).

So the tokens of both are those of the first, but for an extra newline before the open blocks are
closed or behind, and those of the second in the place of the end of the input
(`tokenizeAt_append`).
-/
import Scripting.Proofs.Token.Down
import Scripting.Proofs.Token.Lines

namespace Scripting

/-! ### Open blocks and brackets -/

theorem closeBlocks_zero : ∀ {blocks : List Nat}, (∀ w ∈ blocks, 0 < w) →
    LayoutState.closeBlocks 0 blocks = ([], blocks.length)
  | [], _ => rfl
  | block :: outer, h => by
    have ih := closeBlocks_zero fun w hw => h w (List.mem_cons_of_mem block hw)
    rw [LayoutState.closeBlocks, if_pos (h block (.head _)), ih]
    rfl

theorem foldl_dedents (p : Position) (level depth : Nat) : ∀ closed : Nat,
    (List.replicate closed (⟨.dedent, p⟩ : Token)).foldl (fun level t => t.kind.levelBehind level)
        level = level - closed ∧
      (List.replicate closed (⟨.dedent, p⟩ : Token)).foldl (fun depth t => t.kind.depthBehind depth)
        depth = depth
  | 0 => ⟨rfl, rfl⟩
  | closed + 1 => by
    obtain ⟨hlevel, hdepth⟩ := foldl_dedents p level depth closed
    rw [List.replicate_succ', List.foldl_append, List.foldl_append, hlevel, hdepth]
    exact ⟨rfl, rfl⟩

/-- What the open blocks and brackets are behind some tokens. -/
structure Opens (blocks blocks' : List Nat) (depth depth' : Nat) (ts : List Token) : Prop where
  level : ts.foldl (fun level t => t.kind.levelBehind level) blocks.length = blocks'.length
  depth : ts.foldl (fun depth t => t.kind.depthBehind depth) depth = depth'
  deep : (∀ w ∈ blocks, 0 < w) → ∀ w ∈ blocks', 0 < w

theorem Opens.trans {blocks mid out : List Nat} {d e f : Nat} {ts us : List Token}
    (h : Opens blocks mid d e ts) (h' : Opens mid out e f us) :
    Opens blocks out d f (ts ++ us) where
  level := by rw [List.foldl_append, h.level, h'.level]
  depth := by rw [List.foldl_append, h.depth, h'.depth]
  deep := fun hblocks => h'.deep (h.deep hblocks)

theorem Enters.opens {blocks blocks' : List Nat} {line : ContentLine} {ts : List Token}
    (h : Enters blocks line ts [] blocks') (depth : Nat) : Opens blocks blocks' depth depth ts := by
  cases h with
  | deeper hwidth =>
    exact ⟨rfl, rfl, fun hblocks => List.forall_mem_cons.2 ⟨Nat.zero_lt_of_lt hwidth, hblocks⟩⟩
  | level _ hclose _ =>
    obtain ⟨deeper, rfl, rfl, -⟩ := closeBlocks_spec hclose
    obtain ⟨hlevel, hdepth⟩ :=
      foldl_dedents line.pos (deeper ++ blocks').length depth deeper.length
    refine ⟨hlevel.trans ?_, hdepth, fun hblocks w hw => hblocks w (List.mem_append_right _ hw)⟩
    rw [List.length_append, Nat.add_sub_cancel_left]

section

variable {c : Cursor} {blocks out : List Nat} {ps : List Lexeme} {ts : List Token}
  {ds : List Diagnostic}

theorem Finds.opens (h : Finds c blocks ps ts ds out) (hds : ds = []) (hsound : ∀ p ∈ ps, p.Sound) :
    Opens blocks out c.depth (c.afterAll ps).depth ts := by
  induction h with
  | nil => exact ⟨rfl, rfl, id⟩
  | @enter c _ _ _ lexeme _ _ _ _ _ _ hline henter _ ih =>
    obtain ⟨rfl, rfl⟩ := List.append_eq_nil_iff.1 hds
    have hafter := Cursor.after_of_isContent (Cursor.isContent_of_line? hline).1 c none
    have hmore := ih rfl hsound
    rw [Cursor.afterAll, List.foldl_cons, hafter] at hmore
    exact (henter.opens c.depth).trans hmore
  | @pass c _ _ lexeme _ _ _ _ _ ih =>
    obtain ⟨-, rfl⟩ := List.append_eq_nil_iff.1 hds
    obtain ⟨hlexeme, hsound⟩ := List.forall_mem_cons.1 hsound
    refine .trans ?_ (ih rfl hsound)
    cases lexeme with
    | blank | comment | continued | broken => exact ⟨rfl, rfl, id⟩
    | newline =>
      rw [Cursor.tokens]
      split <;> exact ⟨rfl, rfl, id⟩
    | token kind text =>
      obtain ⟨first, rest, -, hscan⟩ := hlexeme
      exact ⟨Token.Kind.levelBehind_of_isSolid (scanToken_isSolid hscan) _, rfl, id⟩

/-- A line starts behind a newline only, or at the front of the text. -/
theorem Finds.newline_of_margin (h : Finds c blocks ps ts ds out)
    (hmargin : (c.afterAll ps).margin ≠ none) :
    (∃ body p, ts = body ++ [⟨.newline, p⟩]) ∨ ts = [] ∧ c.margin ≠ none := by
  induction h with
  | nil => exact .inr ⟨rfl, hmargin⟩
  | @enter c _ _ _ lexeme _ _ _ _ _ _ hline _ _ ih =>
    have hafter := Cursor.after_of_isContent (Cursor.isContent_of_line? hline).1 c none
    rcases ih (by rwa [Cursor.afterAll, List.foldl_cons, hafter]) with ⟨body, p, rfl⟩ | ⟨-, hnone⟩
    · exact .inl ⟨_, p, (List.append_assoc _ _ _).symm⟩
    · exact absurd rfl hnone
  | @pass c _ _ lexeme _ _ _ _ _ ih =>
    rcases ih hmargin with ⟨body, p, rfl⟩ | ⟨rfl, hafter⟩
    · exact .inl ⟨_, p, (List.append_assoc _ _ _).symm⟩
    rw [List.append_nil]
    cases lexeme with
    | continued | token | broken => exact absurd rfl hafter
    | comment => exact .inr ⟨rfl, hafter⟩
    | blank b => exact .inr ⟨rfl, fun hnone => hafter (congrArg (Option.map (· ++ [b])) hnone)⟩
    | newline =>
      by_cases hnone : c.margin = none
      · have hdepth : c.depth = 0 :=
          Decidable.byContradiction fun hdepth => hafter (if_neg hdepth)
        exact .inl ⟨[], c.pos, if_pos ⟨by rw [hnone]; rfl, hdepth⟩⟩
      · refine .inr ⟨if_neg fun h => hnone (Option.isNone_iff_eq_none.1 h.1), hnone⟩

theorem Cursor.quiet_of_margin {c : Cursor} {lexeme : Lexeme} (hline : c.line? lexeme = none)
    (hmargin : c.margin ≠ none) (hdepth : c.depth = 0) :
    c.tokens lexeme = [] ∧ (c.after lexeme).margin ≠ none ∧ (c.after lexeme).depth = 0 := by
  obtain ⟨margin, hmargin⟩ := Option.ne_none_iff_exists'.1 hmargin
  cases lexeme with
  | continued | token | broken => simp [Cursor.line?, Lexeme.isContent, hmargin] at hline
  | blank | comment | newline =>
    simp [Cursor.tokens, Cursor.after, hmargin, hdepth, Lexeme.depthBehind]

/-- A text that does not begin with an indented line is read in the same way within open
blocks. Its first line that holds something closes them. -/
theorem Finds.under (h : Finds c blocks ps ts ds out) (hds : ds = []) (hblocks : blocks = [])
    (hmargin : c.margin ≠ none) (hdepth : c.depth = 0) (hfront : (Token.front ts).kind ≠ .indent)
    {outer : List Nat} (houter : ∀ w ∈ outer, 0 < w) :
    (∃ p, Finds c outer ps (List.replicate outer.length ⟨.dedent, p⟩ ++ ts) [] out) ∨
    ts = [] ∧ out = [] ∧ Finds c outer ps [] [] outer := by
  induction h with
  | nil => exact .inr ⟨rfl, hblocks, .nil _ _⟩
  | @enter _ _ _ _ _ _ line _ _ _ _ hline henter hmore _ =>
    subst hblocks
    obtain ⟨rfl, rfl⟩ := List.append_eq_nil_iff.1 hds
    cases henter with
    | deeper => exact absurd rfl hfront
    | level hwidth hclose hkept =>
      -- With no block open the line begins at the margin, and all outer blocks end there.
      cases hclose
      have hclose' : LayoutState.closeBlocks line.width outer = ([], outer.length) := by
        rw [← hkept]
        exact closeBlocks_zero houter
      refine .inl ⟨line.pos, ?_⟩
      have hwidth' : ¬ outer.headD 0 < line.width := by
        rw [← hkept]
        exact Nat.not_lt_zero _
      exact .enter hline (.level hwidth' hclose' hkept) hmore
  | @pass c _ _ lexeme _ _ _ hline _ ih =>
    obtain ⟨hcomplaints, rfl⟩ := List.append_eq_nil_iff.1 hds
    obtain ⟨htokens, hmargin', hdepth'⟩ := c.quiet_of_margin hline hmargin hdepth
    rw [htokens] at hfront ⊢
    rcases ih rfl hblocks hmargin' hdepth' hfront with ⟨p, hp⟩ | ⟨rfl, rfl, hp⟩
    · exact .inl ⟨p, .quiet hline htokens hcomplaints rfl hp⟩
    · exact .inr ⟨rfl, rfl, .quiet hline htokens hcomplaints rfl hp⟩

end

/-! ### The end of a text -/

namespace LayoutState

theorem foldl_lineEnd (s : LayoutState) (found : List Token) (level depth : Nat) :
    (s.lineEnd found.getLast?).foldl (fun level t => t.kind.levelBehind level) level = level ∧
    (s.lineEnd found.getLast?).foldl (fun depth t => t.kind.depthBehind depth) depth = depth := by
  rcases s.lineEnd_cases found with ⟨hend, -⟩ | hend
  · rw [hend]
    exact ⟨rfl, rfl⟩
  · rw [hend]
    exact ⟨rfl, rfl⟩

theorem append_lineEnd (s : LayoutState) (found : List Token) :
    found ++ s.lineEnd found.getLast? = [] ∨
      ∃ body p, found ++ s.lineEnd found.getLast? = body ++ [⟨.newline, p⟩] := by
  rcases s.lineEnd_cases found with ⟨hend, hfound⟩ | hend
  · rw [hend, List.append_nil]
    exact hfound
  · rw [hend]
    exact .inr ⟨found, s.pos, rfl⟩

theorem closing_newlines (s : LayoutState) (found : List Token) : ∃ extra,
    s.closing found.getLast? = List.replicate extra ⟨.newline, s.pos⟩ ++ s.closing none := by
  rw [closing_eq, closing_eq]
  rcases s.lineEnd_cases found with ⟨hend, -⟩ | hend
  · exact ⟨0, by rw [hend]; rfl⟩
  · exact ⟨1, by rw [hend]; rfl⟩

theorem lineEnd_of_newlines (s : LayoutState) {body : List Token} (r : Position) (extra : Nat)
    (hbody : body = [] ∨ ∃ lines p, body = lines ++ [⟨.newline, p⟩]) :
    s.lineEnd (body ++ List.replicate extra (⟨.newline, r⟩ : Token)).getLast? = [] := by
  cases extra with
  | succ extra =>
    rw [List.replicate_succ', ← List.append_assoc, List.getLast?_concat]
    rfl
  | zero =>
    rw [List.replicate_zero, List.append_nil]
    rcases hbody with rfl | ⟨lines, p, rfl⟩
    · rfl
    · rw [List.getLast?_concat]
      rfl

theorem foldl_depth_closing (s : LayoutState) (found : List Token) (depth : Nat) :
    (s.closing found.getLast?).foldl (fun depth t => t.kind.depthBehind depth) depth = depth := by
  rw [closing_eq, List.foldl_append, List.foldl_append, (s.foldl_lineEnd found 0 depth).2]
  exact (foldl_dedents s.pos 0 depth s.blocks.length).2

end LayoutState

/-- Behind a text and a newline the next text begins, so many lines further down. -/
theorem Position.advance_newline (text : List Char) :
    Position.start.advance (text ++ ['\n']) = Position.start.down (text.count '\n' + 1) := by
  rw [Position.advance_append, Position.advance_cons, Position.advance_nil, Position.after,
    if_pos rfl, Position.line_advance]
  rfl

theorem Finds.closeLine {text : List Char} {found : List Token} {final : LayoutState}
    (h : Finds (.start .start) [] (lexemes text) found [] final.blocks)
    (hpos : final.pos = Position.start.advance text)
    (hdepth : found.foldl (fun depth t => t.kind.depthBehind depth) 0 = 0) : ∃ extra,
    Finds (.start .start) [] (lexemes text ++ [.newline])
      (found ++ final.lineEnd found.getLast? ++ List.replicate extra ⟨.newline, final.pos⟩) []
      final.blocks ∧
    (Cursor.start .start).afterAll (lexemes text ++ [.newline]) =
      .start (Position.start.down (text.count '\n' + 1)) := by
  have hopens := h.opens rfl (lexemes_sound text)
  generalize hc : (Cursor.start .start).afterAll (lexemes text) = c at hopens
  have hdepth' : c.depth = 0 := hopens.depth.symm.trans hdepth
  have hpos' : c.pos = final.pos := by
    rw [← hc, Cursor.pos_afterAll, flatMap_lexemes, hpos]
    rfl
  have hwhole : Finds (.start .start) [] (lexemes text ++ [.newline]) (found ++ c.tokens .newline) []
      final.blocks := by
    have hnewline : Finds c final.blocks [.newline] (c.tokens .newline ++ []) [] final.blocks :=
      .pass rfl (.nil _ _)
    rw [List.append_nil] at hnewline
    exact h.append (hc ▸ hnewline)
  have hend : ∃ extra, found ++ c.tokens .newline =
      found ++ final.lineEnd found.getLast? ++ List.replicate extra ⟨.newline, final.pos⟩ := by
    by_cases hmargin : c.margin = none
    · have htokens : c.tokens .newline = [⟨.newline, final.pos⟩] := by
        rw [← hpos']
        exact if_pos ⟨by rw [hmargin]; rfl, hdepth'⟩
      rcases final.lineEnd_cases found with ⟨hend, -⟩ | hend
      · exact ⟨1, by rw [hend, htokens, List.append_nil]; rfl⟩
      · exact ⟨0, by rw [hend, htokens, List.replicate_zero, List.append_nil]⟩
    have htokens : c.tokens .newline = [] :=
      if_neg fun h => hmargin (Option.isNone_iff_eq_none.1 h.1)
    have hend : final.lineEnd found.getLast? = [] := by
      rcases h.newline_of_margin (hc ▸ hmargin) with ⟨body, p, rfl⟩ | ⟨rfl, -⟩
      · rw [List.getLast?_concat]
        rfl
      · rfl
    exact ⟨0, by rw [hend, htokens, List.replicate_zero, List.append_nil, List.append_nil]⟩
  obtain ⟨extra, hextra⟩ := hend
  refine ⟨extra, hextra ▸ hwhole, ?_⟩
  rw [Cursor.afterAll, List.foldl_append]
  change ((Cursor.start .start).afterAll (lexemes text)).after .newline = _
  rw [hc, Cursor.after, hpos', hpos, if_pos hdepth', ← Position.advance_newline,
    Position.advance_append]
  exact congrArg (Cursor.mk _ · _) hdepth'

/-- The second text behind the first, whose lines are complete and whose blocks are open: it closes
them, and its tokens come further down. -/
theorem Finds.appended {text : List Char} {pos : Position} {found : List Token}
    {final : LayoutState} (h : Finds (.start pos) [] (lexemes text) found [] final.blocks)
    (hfront : (Token.front found).kind ≠ .indent) {outer : List Nat} (houter : ∀ w ∈ outer, 0 < w)
    {prior : List Token} (hprior : ∀ s : LayoutState, s.lineEnd prior.getLast? = []) (k : Nat) :
    ∃ (more : List Token) (final' : LayoutState) (extra : Nat) (u v : Position),
      Finds (.start (pos.down k)) outer (lexemes text) more [] final'.blocks ∧
      final'.pos = final.pos.down k ∧
      more ++ final'.closing (prior ++ more).getLast? =
        List.replicate outer.length ⟨.dedent, u⟩ ++ (List.replicate extra ⟨.newline, v⟩ ++
          (found ++ final.closing found.getLast?).map (Token.down k)) := by
  have hfront' : (Token.front (found.map (Token.down k))).kind ≠ .indent := by
    cases found with
    | nil => nofun
    | cons t rest => exact hfront
  rcases (h.down rfl k).under rfl rfl nofun rfl hfront' houter with
    ⟨u, hfinds⟩ | ⟨hfound, hblocks, hfinds⟩
  · cases hfound : found with
    | nil =>
      subst hfound
      obtain ⟨extra, hextra⟩ := (final.down k).closing_newlines
        (prior ++ List.replicate outer.length (⟨.dedent, u⟩ : Token))
      refine ⟨_, final.down k, extra, u, (final.down k).pos, hfinds, rfl, ?_⟩
      rw [List.map_nil, List.append_nil, hextra, List.nil_append, ← LayoutState.closing_down]
      rfl
    | cons t rest =>
      subst hfound
      refine ⟨_, final.down k, 0, u, u, hfinds, rfl, ?_⟩
      obtain ⟨x, hx⟩ : ∃ x, (t :: rest).getLast? = some x :=
        ⟨_, List.getLast?_eq_some_getLast (List.cons_ne_nil t rest)⟩
      rw [← List.append_assoc, List.getLast?_append, List.getLast?_map, hx, Option.map_some,
        Option.some_or, ← Option.map_some, LayoutState.closing_down, List.replicate_zero,
        List.nil_append, List.map_append, List.append_assoc]
  obtain rfl : found = [] := List.map_eq_nil_iff.1 hfound
  refine ⟨[], { final.down k with blocks := outer }, 0, (final.down k).pos, pos, hfinds, rfl, ?_⟩
  rw [List.append_nil, LayoutState.closing_eq, hprior, LayoutState.closing_eq, hblocks]
  rfl

/-- How the tokens of a text and of another one behind it go together, with so many
extra newlines before the open blocks are closed and behind. The lines of the first are
complete, and no bracket is open. -/
inductive Joined (k : Nat) (tail : List Token) (extra newlines : Nat) :
    List Token → List Token → Prop
  | intro (lines : List Token) (blocks : Nat) (p q r u v : Position)
      (hkind : ∀ t ∈ lines, t.kind ≠ .eof)
      (hline : lines = [] ∨ ∃ before p, lines = before ++ [⟨.newline, p⟩])
      (hlevel : lines.foldl (fun level t => t.kind.levelBehind level) 0 = blocks)
      (hdepth : lines.foldl (fun depth t => t.kind.depthBehind depth) 0 = 0) :
      Joined k tail extra newlines
        (lines ++ (List.replicate blocks ⟨.dedent, p⟩ ++ [⟨.eof, q⟩]))
        (lines ++ (List.replicate extra ⟨.newline, r⟩ ++ (List.replicate blocks ⟨.dedent, u⟩ ++
          (List.replicate newlines ⟨.newline, v⟩ ++ tail.map (Token.down k)))))

theorem tokenizeAt_append {first second : List Char} {ts ts' : List Token}
    (h : tokenizeAt .start first = .ok ts) (h' : tokenizeAt .start second = .ok ts')
    (hdepth : ts.foldl (fun depth t => t.kind.depthBehind depth) 0 = 0)
    (hfront : (Token.front ts').kind ≠ .indent) : ∃ all extra newlines,
    tokenizeAt .start (first ++ '\n' :: second) = .ok all ∧
      Joined (first.count '\n' + 1) ts' extra newlines ts all := by
  obtain ⟨body, q, hbody, hkinds⟩ := tokenizeAt_eof h
  obtain ⟨found, final, hfinds, hpos, rfl⟩ := tokenizeAt_ok_iff.1 h
  obtain ⟨found', final', hfinds', hpos', rfl⟩ := tokenizeAt_ok_iff.1 h'
  have hopens := hfinds.opens rfl (lexemes_sound first)
  rw [List.foldl_append, LayoutState.foldl_depth_closing] at hdepth
  have hfront' : (Token.front found').kind ≠ .indent := by
    cases found' with
    | nil => nofun
    | cons t rest => exact hfront
  obtain ⟨extra, hfirst, hcursor⟩ := hfinds.closeLine hpos hdepth
  have hprior (s : LayoutState) := s.lineEnd_of_newlines final.pos extra (final.append_lineEnd found)
  obtain ⟨more, final'', newlines, u, v, hsecond, hpos'', hall⟩ :=
    hfinds'.appended hfront' (hopens.deep nofun) hprior (first.count '\n' + 1)
  have hlexemes : lexemes (first ++ '\n' :: second) = lexemes first ++ [.newline] ++ lexemes second := by
    rw [lexemes_line (hfinds.whole rfl), List.append_assoc]
    rfl
  have hwhole := hfirst.append (hcursor ▸ hsecond)
  rw [← hlexemes] at hwhole
  refine ⟨_, extra, newlines, tokenizeAt_ok_iff.2 ⟨_, final'', hwhole, ?_, rfl⟩, ?_⟩
  · rw [List.append_cons, Position.advance_append, Position.advance_newline, Position.advance_down,
      ← hpos', hpos'']
  rw [final.closing_eq, ← List.append_assoc found, List.append_assoc _ more, hall,
    List.append_assoc _ (List.replicate extra _)]
  refine .intro _ _ _ _ _ u v (fun t ht => ?_) (final.append_lineEnd found) ?_ ?_
  · refine hkinds t ?_
    rw [final.closing_eq, ← List.append_assoc, ← List.append_assoc] at hbody
    rw [← (List.append_inj' hbody rfl).1]
    exact List.mem_append_left _ ht
  · rw [List.foldl_append, show found.foldl _ 0 = final.blocks.length from hopens.level]
    exact (final.foldl_lineEnd found _ 0).1
  · rw [List.foldl_append, hdepth]
    exact (final.foldl_lineEnd found 0 0).2

end Scripting
