/-
# Line ends of two characters

A carriage return in front of a newline is blank space at the end of its line, or the end of its
comment. So a text with tokens has the same tokens on the same lines when each newline in it is
replaced by a carriage return and a newline, as long as no line is continued: a backslash continues
its line only directly in front of the newline, and is no token elsewhere (`tokenize_crlf`).

The proof goes from line to line (`lines_induction`). What the lexemes of a line find is the same
with the carriage return, and the newline behind it leads to the same place (`Finds.returned`).
-/
import Mathlib.Data.List.Forall2
import Scripting.Proofs.Token.Lines

namespace Scripting

/-- A text with a carriage return in front of each newline. -/
def returned (text : List Char) : List Char :=
  text.flatMap fun c => if c = '\n' then ['\r', '\n'] else [c]

/-- A source with line ends of two characters. -/
def crlf (source : String) : String := String.ofList (returned source.toList)

/-- The same token on the same line, and in the same column if it is not the end of the line. -/
def Token.Matches (t t' : Token) : Prop :=
  t'.kind = t.kind ∧ t'.pos.line = t.pos.line ∧ (t.kind ≠ .newline → t'.pos = t.pos)

theorem Token.Matches.refl (t : Token) : t.Matches t := ⟨rfl, rfl, fun _ => rfl⟩

theorem Token.map_kind_of_matches {ts us : List Token} (h : List.Forall₂ Token.Matches ts us) :
    us.map Token.kind = ts.map Token.kind := by
  induction h with
  | nil => rfl
  | cons ht _ ih => rw [List.map_cons, List.map_cons, ht.1, ih]

/-- Whether a backslash continues one of the lines of a source. -/
def hasContinuedLine (source : String) : Bool :=
  (lexemes source.toList).any fun
    | .continued => true
    | _ => false

theorem hasContinuedLine_iff {source : String} :
    hasContinuedLine source = true ↔ .continued ∈ lexemes source.toList := by
  unfold hasContinuedLine
  rw [List.any_eq_true]
  constructor
  · rintro ⟨lexeme, hmem, h⟩
    cases lexeme with
    | continued => exact hmem
    | _ => cases h
  · exact fun h => ⟨_, h, rfl⟩

/-! ### Lines of a text -/

theorem lines_induction {P : List Char → Prop} (last : ∀ x, '\n' ∉ x → P x)
    (line : ∀ x y, '\n' ∉ x → P y → P (x ++ '\n' :: y)) (text : List Char) : P text := by
  suffices h : ∀ x, '\n' ∉ x → P (x ++ text) from h [] (by simp)
  induction text with
  | nil => exact fun x hx => by rw [List.append_nil]; exact last x hx
  | cons c text ih =>
    intro x hx
    by_cases hc : c = '\n'
    · subst hc
      exact line x text hx (ih [] (by simp))
    · rw [← List.singleton_append, ← List.append_assoc]
      exact ih (x ++ [c]) (by simp [hx, Ne.symm hc])

theorem returned_of_not_mem {x : List Char} (hx : '\n' ∉ x) : returned x = x := by
  induction x with
  | nil => rfl
  | cons c x ih =>
    obtain ⟨hc, hx⟩ := not_or.1 (fun h => hx (List.mem_cons.2 h))
    rw [returned, List.flatMap_cons, if_neg (Ne.symm hc)]
    exact congrArg _ (ih hx)

theorem returned_line {x : List Char} (hx : '\n' ∉ x) (y : List Char) :
    returned (x ++ '\n' :: y) = (x ++ ['\r']) ++ '\n' :: returned y := by
  rw [returned, List.flatMap_append, ← returned, returned_of_not_mem hx]
  simp [returned]

theorem Position.advance_returned : ∀ (text : List Char) (p : Position),
    p.advance (returned text) = p.advance text
  | [], _ => rfl
  | c :: text, p => by
    have hfirst : p.advance (if c = '\n' then ['\r', '\n'] else [c]) = p.after c := by
      by_cases hc : c = '\n'
      · subst hc
        simp [Position.advance_cons, Position.after]
      · rw [if_neg hc]
        rfl
    rw [returned, List.flatMap_cons, Position.advance_append, hfirst, ← returned,
      advance_returned text, Position.advance_cons]

/-! ### Lexemes -/

/-- The lexemes of a line, and those of the line with a carriage return behind it: one more blank
character, or one more character of the comment. -/
inductive ReturnedLine : List Lexeme → List Lexeme → Prop
  | blank (ps : List Lexeme) : ReturnedLine ps (ps ++ [.blank '\r'])
  | comment (ps : List Lexeme) (line : List Char) :
      ReturnedLine (ps ++ [.comment line]) (ps ++ [.comment (line ++ ['\r'])])

theorem returnedLine_lexemes {x : List Char} (h : Whole x ∨ Whole (x ++ ['\r'])) :
    ReturnedLine (lexemes x) (lexemes (x ++ ['\r'])) := by
  rcases lexemes_append (.inr ⟨rfl, rfl⟩) h with happend | ⟨-, ps, line, hps, hps'⟩ | ⟨hstop, -⟩
  · have hblank : lexemes ['\r'] = [.blank '\r'] := by
      rw [lexemes_blank rfl, lexemes]
    rw [happend, hblank]
    exact .blank _
  · rw [hps, hps']
    exact .comment ps line
  · cases hstop

theorem ReturnedLine.whole_iff {ps qs : List Lexeme} (h : ReturnedLine ps qs) :
    (∀ p ∈ ps, p.isBroken = false) ↔ ∀ p ∈ qs, p.isBroken = false := by
  cases h with
  | blank ps =>
    rw [List.forall_mem_append, List.forall_mem_singleton]
    exact ⟨fun h => ⟨h, rfl⟩, And.left⟩
  | comment ps line =>
    simp only [List.forall_mem_append, List.forall_mem_singleton]
    exact ⟨fun h => ⟨h.1, rfl⟩, fun h => ⟨h.1, rfl⟩⟩

/-- The lexemes of two texts, line by line. -/
inductive Returned : List Lexeme → List Lexeme → Prop
  | last (ps : List Lexeme) : Returned ps ps
  | line {ps qs ps' qs' : List Lexeme} (hline : ReturnedLine ps ps') (h : Returned qs qs') :
      Returned (ps ++ .newline :: qs) (ps' ++ .newline :: qs')

theorem returned_lexemes (text : List Char) : Whole text → .continued ∉ lexemes text →
    Returned (lexemes text) (lexemes (returned text)) := by
  induction text using lines_induction with
  | last x hx =>
    intro _ _
    rw [returned_of_not_mem hx]
    exact .last _
  | line x y hx ih =>
    intro hwhole hcontinued
    obtain ⟨hwhole, hwhole'⟩ := hwhole.line.resolve_right fun h => hcontinued h.2
    have hline := returnedLine_lexemes (.inl hwhole)
    rw [lexemes_line hwhole] at hcontinued ⊢
    rw [returned_line hx, lexemes_line (hline.whole_iff.1 hwhole)]
    refine .line hline (ih hwhole' fun h => hcontinued ?_)
    exact List.mem_append_right _ (.tail _ h)

/-- In a text with line ends of two characters no backslash continues a line. -/
theorem continued_not_mem (text : List Char) : Whole (returned text) →
    .continued ∉ lexemes text := by
  have hline {x : List Char} (hx : '\n' ∉ x) : .continued ∉ lexemes x := by
    intro h
    rw [← flatMap_lexemes x] at hx
    exact hx (List.mem_flatMap.2 ⟨_, h, by simp [Lexeme.text]⟩)
  induction text using lines_induction with
  | last x hx => exact fun _ => hline hx
  | line x y hx ih =>
    intro hwhole
    rw [returned_line hx] at hwhole
    obtain ⟨hwhole, hwhole'⟩ := hwhole.line.resolve_right fun h => by
      obtain ⟨front, hfront⟩ := h.1
      cases (List.append_inj_right' hfront rfl)
    have hwhole : Whole x := (returnedLine_lexemes (.inr hwhole)).whole_iff.2 hwhole
    rw [lexemes_line hwhole]
    intro h
    rcases List.mem_append.1 h with h | h
    · exact hline hx h
    · refine ih hwhole' ((List.mem_cons.1 h).resolve_left fun hnewline => ?_)
      cases hnewline

/-! ### Tokens -/

section Finds

variable {c : Cursor} {blocks out : List Nat} {ps qs : List Lexeme} {ts : List Token}

/-- One cursor is behind the other by a carriage return. -/
structure Cursor.Returned (c c' : Cursor) : Prop where
  pos : c'.pos = c.pos.advance ['\r']
  depth : c'.depth = c.depth
  margin : c'.margin.isNone = c.margin.isNone

theorem Cursor.Returned.newline {c' : Cursor} (h : c.Returned c') :
    List.Forall₂ Token.Matches (c.tokens .newline) (c'.tokens .newline) ∧
      c'.after .newline = c.after .newline := by
  constructor
  · rw [Cursor.tokens, Cursor.tokens, h.depth, h.margin, h.pos]
    split
    · exact .cons ⟨rfl, rfl, fun hkind => absurd rfl hkind⟩ .nil
    · exact .nil
  · simp only [Cursor.after, Lexeme.text, Lexeme.depthBehind, h.pos, h.depth]
    rfl

theorem Finds.returnedLine {ds : List Diagnostic} (h : Finds c blocks ps ts ds out)
    (hline : ReturnedLine ps qs) :
    Finds c blocks qs ts ds out ∧ (c.afterAll ps).Returned (c.afterAll qs) := by
  cases hline with
  | blank ps =>
    have hblank : Finds (c.afterAll ps) out [.blank '\r'] [] [] out := .quiet rfl rfl rfl rfl (.nil _ _)
    have hall := h.append hblank
    rw [List.append_nil, List.append_nil] at hall
    refine ⟨hall, ?_⟩
    rw [Cursor.afterAll, Cursor.afterAll, List.foldl_append]
    exact ⟨rfl, rfl, Option.isNone_map⟩
  | comment ps line =>
    obtain ⟨ts', us, ds', es, mid, hps, hcomment, rfl, rfl⟩ := h.split
    have hcomment' : Finds (c.afterAll ps) mid [.comment (line ++ ['\r'])] us es out := by
      cases hcomment with
      | enter hline => cases hline
      | pass _ h =>
        cases h
        exact .pass rfl (.nil _ _)
    refine ⟨hps.append hcomment', ?_⟩
    rw [Cursor.afterAll, Cursor.afterAll, List.foldl_append, List.foldl_append]
    exact ⟨Position.advance_append .., rfl, rfl⟩

theorem Finds.returned (h : Returned ps qs) : ∀ {c : Cursor} {blocks : List Nat} {ts : List Token},
    Finds c blocks ps ts [] out →
      ∃ us, List.Forall₂ Token.Matches ts us ∧ Finds c blocks qs us [] out := by
  induction h with
  | last ps => exact fun {_ _ ts} h => ⟨ts, List.forall₂_same.2 fun t _ => .refl t, h⟩
  | line hline _ ih =>
    intro c blocks _ h
    obtain ⟨ts, us, ds, es, mid, hps, hrest, rfl, hnone⟩ := h.split
    obtain ⟨rfl, hes⟩ := List.append_eq_nil_iff.1 hnone.symm
    obtain ⟨hps, hbehind⟩ := hps.returnedLine hline
    obtain ⟨hnewline, hafter⟩ := hbehind.newline
    cases hrest with
    | enter hline => cases hline
    | pass _ hrest =>
      obtain rfl := (List.append_eq_nil_iff.1 hes).2
      obtain ⟨more, hmore, hrest⟩ := ih hrest
      rw [← hafter] at hrest
      refine ⟨_, ?_, hps.append (.pass rfl hrest)⟩
      exact List.rel_append (List.forall₂_same.2 fun t _ => .refl t) (List.rel_append hnewline hmore)

end Finds

/-- A text with tokens has the same tokens on the same lines with line ends of two characters,
unless it has a continued line: then it has no tokens at all. -/
theorem tokenize_crlf {source : String} {ts : List Token} (h : tokenize source = .ok ts) :
    (hasContinuedLine source = false →
      ∃ us, tokenize (crlf source) = .ok us ∧ List.Forall₂ Token.Matches ts us) ∧
    (hasContinuedLine source = true → ∃ wrong, tokenize (crlf source) = .error wrong) := by
  obtain ⟨found, final, hfinds, hpos, rfl⟩ := tokenizeAt_ok_iff.1 h
  have hchars : (crlf source).toList = returned source.toList := String.toList_ofList
  unfold tokenize
  rw [hchars, ← Bool.not_eq_true, hasContinuedLine_iff]
  constructor
  · intro hcontinued
    obtain ⟨us, hus, hfinds'⟩ := hfinds.returned (returned_lexemes _ (hfinds.whole rfl) hcontinued)
    have hlast : us.getLast?.map Token.kind = found.getLast?.map Token.kind := by
      rw [← List.getLast?_map, ← List.getLast?_map, Token.map_kind_of_matches hus]
    refine ⟨_, tokenizeAt_ok_iff.2 ⟨us, final, hfinds', ?_, rfl⟩, ?_⟩
    · rw [hpos, Position.advance_returned]
    · rw [LayoutState.closing_congr _ hlast]
      exact List.rel_append hus (List.forall₂_same.2 fun t _ => .refl t)
  intro hcontinued
  cases htokenize : tokenizeAt .start (returned source.toList) with
  | error wrong => exact ⟨wrong, rfl⟩
  | ok us =>
    obtain ⟨_, _, hfinds', -, -⟩ := tokenizeAt_ok_iff.1 htokenize
    exact absurd hcontinued (continued_not_mem _ (hfinds'.whole rfl))

/-- A block, brackets over two lines and a comment. -/
theorem tokenize_crlf_block : ∃ ts us, tokenize "if x:\n  y = [1,\n2] # c\n" = .ok ts ∧
    hasContinuedLine "if x:\n  y = [1,\n2] # c\n" = false ∧
    tokenize (crlf "if x:\n  y = [1,\n2] # c\n") = .ok us ∧ List.Forall₂ Token.Matches ts us := by
  have hok : (tokenize "if x:\n  y = [1,\n2] # c\n").isOk = true := by decide +kernel
  have hlines : hasContinuedLine "if x:\n  y = [1,\n2] # c\n" = false := by decide +kernel
  cases hts : tokenize "if x:\n  y = [1,\n2] # c\n" with
  | error => rw [hts] at hok; cases hok
  | ok ts =>
    obtain ⟨us, hus, hmatches⟩ := (tokenize_crlf hts).1 hlines
    exact ⟨ts, us, rfl, hlines, hus, hmatches⟩

/-- A line that goes on behind a backslash has tokens, but with line ends of two characters it has
none. -/
theorem crlf_breaks_continued_line : '\r' ∉ "a \\\n b".toList ∧
    (∃ ts, tokenize "a \\\n b" = .ok ts) ∧ ∀ us, tokenize (crlf "a \\\n b") ≠ .ok us := by
  have hok : (tokenize "a \\\n b").isOk = true := by decide +kernel
  have hwrong : (tokenize (crlf "a \\\n b")).isOk = false := by decide +kernel
  refine ⟨by decide, ?_, fun us hus => ?_⟩
  · cases hts : tokenize "a \\\n b" with
    | error => rw [hts] at hok; cases hok
    | ok ts => exact ⟨ts, rfl⟩
  · rw [hus] at hwrong
    cases hwrong

end Scripting
