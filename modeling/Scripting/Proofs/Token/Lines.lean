/-
# The lexemes of lines

No token reaches over the end of its line, and so the lexemes of a text with a line end and more
behind it are those of the text and those of the rest (`lexemes_append`). There are two exceptions:
a comment goes on up to the newline, and a backslash in front of the newline continues the line.

Lexemes can be followed in two parts. What the first ones find does not depend on the others, and
these go on from where the first ones lead (`Finds.append`, `Finds.split`).
-/
import Scripting.Proofs.Token.Lexemes

namespace Scripting

/-! ### Lexemes with more behind them -/

section

variable {stop : Char} {tail : List Char}

theorem take_lineLength (text : List Char) :
    text.take (lineLength text) = text.takeWhile fun c => c != '\n' :=
  (List.prefix_iff_eq_take.1 (List.takeWhile_prefix _)).symm

/-- How the lexeme at the front of a text changes with the end of the line behind the text: not at
all, unless it is the comment that reaches there, or a backslash that now continues the line, or
broken before and behind. -/
theorem firstLexeme_append (h : EndsLine stop tail) (first : Char) (rest : List Char) :
    firstLexeme first (rest ++ stop :: tail) = firstLexeme first rest ∨
    (stop = '\r' ∧ first = '#' ∧ '\n' ∉ rest) ∨ (stop = '\n' ∧ first = '\\' ∧ rest = []) ∨
    (firstLexeme first rest).isBroken = true ∧
      (firstLexeme first (rest ++ stop :: tail)).isBroken = true := by
  by_cases hblank : isBlank first = true
  · refine .inl ?_
    unfold firstLexeme
    rw [if_pos hblank, if_pos hblank]
  by_cases hnewline : first = '\n'
  · subst hnewline
    exact .inl rfl
  by_cases hhash : first = '#'
  · subst hhash
    have hcomment (text : List Char) :
        firstLexeme '#' text = .comment (text.takeWhile fun c => c != '\n') :=
      congrArg Lexeme.comment (take_lineLength text)
    rw [hcomment, hcomment]
    by_cases hline : '\n' ∈ rest
    · obtain ⟨line, more, rfl⟩ := List.append_of_mem hline
      rw [List.append_assoc, List.cons_append, takeWhile_append_end rfl, takeWhile_append_end rfl]
      exact .inl rfl
    rcases h with rfl | ⟨rfl, -⟩
    · rw [takeWhile_append_end rfl]
      exact .inl rfl
    · exact .inr (.inl ⟨rfl, rfl, hline⟩)
  by_cases hslash : first = '\\' ∧ ∃ more, rest = '\n' :: more
  · obtain ⟨rfl, more, rfl⟩ := hslash
    exact .inl rfl
  by_cases hseam : stop = '\n' ∧ first = '\\' ∧ rest = []
  · exact .inr (.inr (.inl hseam))
  have hscanned : Scanned first rest :=
    ⟨by simpa using hblank, hnewline, hhash, fun hfirst more hmore => hslash ⟨hfirst, more, hmore⟩⟩
  have hscanned' : Scanned first (rest ++ stop :: tail) := by
    refine ⟨hscanned.1, hnewline, hhash, fun hfirst more hmore => ?_⟩
    cases rest with
    | nil => exact hseam ⟨(List.cons.inj hmore).1, hfirst, rfl⟩
    | cons c rest => exact hslash ⟨hfirst, rest, by rw [(List.cons.inj hmore).1]⟩
  rw [firstLexeme_of_scanned hscanned, firstLexeme_of_scanned hscanned']
  cases hscan : scanToken first rest with
  | token kind more =>
    refine .inl ?_
    rw [(scanToken_append h).2 hscan]
    dsimp only
    rw [List.take_append_of_le_length (scanToken_length_le hscan)]
  | error complaint offset more =>
    cases hscan' : scanToken first (rest ++ stop :: tail) with
    | token kind more' => cases hscan.symm.trans ((scanToken_append h).1 hscan')
    | error => exact .inr (.inr (.inr ⟨rfl, rfl⟩))

theorem lexemes_lastComment {line : List Char} (h : '\n' ∉ line) :
    lexemes ('#' :: line) = [.comment line] := by
  have hline : line.takeWhile (fun c => c != '\n') = line := by
    have htake : (line ++ []).takeWhile (fun c => c != '\n') = line ++ [].takeWhile _ :=
      List.takeWhile_append_of_pos fun c hc => bne_iff_ne.2 fun hnewline => h (hnewline ▸ hc)
    simpa using htake
  have hlength : lineLength line = line.length := congrArg List.length hline
  rw [lexemes_comment, take_lineLength, hline, hlength, List.drop_length, lexemes]

def Whole (text : List Char) : Prop := ∀ p ∈ lexemes text, p.isBroken = false

/-- The lexemes of a text with the end of the line behind it, if one of the two is whole: those of
the text and of what is behind it, unless the last one is a comment that goes on or a backslash
that continues the line. -/
theorem lexemes_append (h : EndsLine stop tail) {text : List Char}
    (hwhole : Whole text ∨ Whole (text ++ stop :: tail)) :
    lexemes (text ++ stop :: tail) = lexemes text ++ lexemes (stop :: tail) ∨
    (stop = '\r' ∧ ∃ ps line, lexemes text = ps ++ [.comment line] ∧
      lexemes (text ++ stop :: tail) = ps ++ [.comment (line ++ ['\r'])]) ∨
    (stop = '\n' ∧ ¬ Whole text ∧ ['\\'] <:+ text ∧
      ∃ ps, lexemes (text ++ stop :: tail) = ps ++ .continued :: lexemes tail) := by
  unfold Whole at hwhole ⊢
  fun_induction lexemes text with
  | case1 => exact .inl rfl
  | case2 first rest ih =>
    rcases firstLexeme_append h first rest with
      hsame | ⟨rfl, rfl, hline⟩ | ⟨rfl, rfl, rfl⟩ | ⟨hbroken, hbroken'⟩
    · have hlexemes : lexemes (first :: rest ++ stop :: tail) = firstLexeme first rest ::
          lexemes ((first :: rest).drop (firstLexeme first rest).text.length ++ stop :: tail) := by
        rw [← List.drop_append_of_le_length (firstLexeme_isPrefix first rest).1.length_le,
          List.cons_append, lexemes, hsame]
      rw [hlexemes] at hwhole ⊢
      rcases ih (hwhole.imp (fun h => (List.forall_mem_cons.1 h).2)
          fun h => (List.forall_mem_cons.1 h).2) with
        happend | ⟨hstop, ps, line, hps, hps'⟩ | ⟨hstop, hnot, hslash, ps, hps⟩
      · exact .inl (congrArg _ happend)
      · exact .inr (.inl ⟨hstop, _ :: ps, line, congrArg _ hps, congrArg _ hps'⟩)
      · refine .inr (.inr ⟨hstop, fun h => hnot (List.forall_mem_cons.1 h).2, ?_, _ :: ps,
          congrArg _ hps⟩)
        exact hslash.trans (List.drop_suffix _ _)
    · obtain ⟨-, rfl⟩ := h.resolve_left (by decide)
      have hline' : '\n' ∉ rest ++ ['\r'] := by simp [hline]
      have hcomment := lexemes_lastComment hline
      rw [lexemes] at hcomment
      exact .inr (.inl ⟨rfl, [], rest, hcomment, lexemes_lastComment hline'⟩)
    · refine .inr (.inr ⟨rfl, fun h => ?_, List.suffix_rfl, [], lexemes_continued tail⟩)
      cases h _ (.head _)
    rcases hwhole with hwhole | hwhole
    · cases hbroken.symm.trans (hwhole _ (.head _))
    · rw [List.cons_append, lexemes] at hwhole
      cases hbroken'.symm.trans (hwhole _ (.head _))

end

theorem lexemes_line {text : List Char} (h : Whole text) (tail : List Char) :
    lexemes (text ++ '\n' :: tail) = lexemes text ++ .newline :: lexemes tail := by
  rcases lexemes_append (.inl rfl) (.inl h) with happend | ⟨hstop, -⟩ | ⟨-, hnot, -⟩
  · rw [happend, lexemes_newline]
  · cases hstop
  · exact absurd h hnot

/-- A newline in a text without broken lexemes ends a line, or a backslash stands in front of it
and continues the line. -/
theorem Whole.line {text tail : List Char} (h : Whole (text ++ '\n' :: tail)) :
    Whole text ∧ Whole tail ∨
    ['\\'] <:+ text ∧ .continued ∈ lexemes (text ++ '\n' :: tail) := by
  rcases lexemes_append (.inl rfl) (.inr h) with happend | ⟨hstop, -⟩ | ⟨-, -, hslash, ps, hps⟩
  · unfold Whole at h
    rw [happend, lexemes_newline, List.forall_mem_append, List.forall_mem_cons] at h
    exact .inl ⟨h.1, h.2.2⟩
  · cases hstop
  · exact .inr ⟨hslash, hps ▸ List.mem_append_right _ (.head _)⟩

/-! ### Finding in two parts -/

def Cursor.afterAll (c : Cursor) (ps : List Lexeme) : Cursor := ps.foldl Cursor.after c

theorem Cursor.pos_afterAll : ∀ (ps : List Lexeme) (c : Cursor),
    (c.afterAll ps).pos = c.pos.advance (ps.flatMap Lexeme.text)
  | [], _ => rfl
  | p :: ps, c => by
    rw [List.flatMap_cons, Position.advance_append]
    exact pos_afterAll ps (c.after p)

section

variable {c : Cursor} {blocks mid out : List Nat} {ps qs : List Lexeme} {ts us : List Token}
  {ds es : List Diagnostic}

theorem Finds.append (h : Finds c blocks ps ts ds mid)
    (h' : Finds (c.afterAll ps) mid qs us es out) :
    Finds c blocks (ps ++ qs) (ts ++ us) (ds ++ es) out := by
  induction h with
  | nil => exact h'
  | @enter c _ _ _ lexeme ps _ _ _ _ _ hline henter _ ih =>
    have hafter := Cursor.after_of_isContent (Cursor.isContent_of_line? hline).1 c none
    rw [List.append_assoc, List.append_assoc]
    refine .enter hline henter (ih ?_)
    rwa [Cursor.afterAll, List.foldl_cons, hafter]
  | pass hline _ ih =>
    rw [List.append_assoc, List.append_assoc]
    exact .pass hline (ih h')

theorem Finds.split : ∀ {ps : List Lexeme} {c : Cursor} {blocks : List Nat} {ts : List Token}
    {ds : List Diagnostic}, Finds c blocks (ps ++ qs) ts ds out →
    ∃ ts' us ds' es mid, Finds c blocks ps ts' ds' mid ∧ Finds (c.afterAll ps) mid qs us es out ∧
      ts = ts' ++ us ∧ ds = ds' ++ es
  | [], c, blocks, ts, ds, h => ⟨[], ts, [], ds, blocks, .nil c blocks, h, rfl, rfl⟩
  | lexeme :: ps, c, blocks, _, _, h => by
    cases h with
    | enter hline henter h =>
      cases h with
      | enter hline' =>
        obtain ⟨-, margin, hmargin, -⟩ := Cursor.isContent_of_line? hline'
        cases hmargin
      | pass hline' h =>
        have hafter := Cursor.after_of_isContent (Cursor.isContent_of_line? hline).1 c none
        obtain ⟨ts', us, ds', es, mid, hps, hqs, rfl, rfl⟩ := split h
        rw [hafter] at hqs
        refine ⟨_, us, _, es, mid, .enter hline henter (.pass hline' hps), hqs, ?_, ?_⟩ <;>
          simp only [List.append_assoc]
    | pass hline h =>
      obtain ⟨ts', us, ds', es, mid, hps, hqs, rfl, rfl⟩ := split h
      refine ⟨_, us, _, es, mid, .pass hline hps, hqs, ?_, ?_⟩ <;> rw [List.append_assoc]

end

end Scripting
