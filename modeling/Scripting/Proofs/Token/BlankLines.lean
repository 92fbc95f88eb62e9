/-
# Lines without tokens

A line of blank space, with a comment behind it or not, leaves no trace but its number: put between
two lines of a text that has tokens, it moves the tokens behind it down by one line and changes
nothing else (`tokenize_blankLine`). This holds at any indentation and in brackets. The line in
front must not end in a backslash, which would continue it.

Where a line begins, only the open brackets decide whether its margin counts (`Cursor.AtLine`). The
lexemes of a line without tokens lead from there to the same place one line further down
(`Finds.blankLine`).
-/
import Scripting.Proofs.Token.Down
import Scripting.Proofs.Token.Lines

namespace Scripting

/-- The characters of a line with nothing in it but blank space and perhaps a comment. -/
def IsBlankLine (line : List Char) : Prop :=
  ∃ blanks comment, line = blanks ++ comment ++ ['\n'] ∧ (∀ c ∈ blanks, isBlank c = true) ∧
    (comment = [] ∨ ∃ text, comment = '#' :: text ∧ '\n' ∉ text)

/-- The characters of a text that ends with a line, which no backslash continues. -/
def EndsAtLine (text : List Char) : Prop :=
  text = [] ∨ ∃ front, text = front ++ ['\n'] ∧ ¬ ['\\'] <:+ front

def Cursor.AtLine (c : Cursor) : Prop :=
  c.pos.column = 1 ∧ c.margin = if c.depth = 0 then some [] else none

theorem Cursor.atLine_after_newline (c : Cursor) : (c.after .newline).AtLine :=
  ⟨rfl, rfl⟩

/-! ### The lexemes in front -/

/-- Whatever comes behind a text that ends with a line, the lexemes of the text are the same, and
they lead to the beginning of a line. -/
theorem lexemes_behind {text tail : List Char} (h : EndsAtLine text) (hwhole : Whole (text ++ tail)) :
    ∃ ps, ps.flatMap Lexeme.text = text ∧ ((Cursor.start .start).afterAll ps).AtLine ∧
      ∀ tail, lexemes (text ++ tail) = ps ++ lexemes tail := by
  rcases h with rfl | ⟨front, rfl, hslash⟩
  · exact ⟨[], rfl, ⟨rfl, rfl⟩, fun _ => rfl⟩
  rw [List.append_assoc, List.singleton_append] at hwhole
  obtain ⟨hfront, -⟩ := hwhole.line.resolve_right fun hends => hslash hends.1
  refine ⟨lexemes front ++ [.newline], ?_, ?_, fun tail => ?_⟩
  · rw [List.flatMap_append, flatMap_lexemes]
    rfl
  · rw [Cursor.afterAll, List.foldl_append]
    exact Cursor.atLine_after_newline _
  · rw [List.append_assoc, List.append_assoc, List.singleton_append, List.singleton_append,
      lexemes_line hfront]

theorem EndsAtLine.line_le {text read rest : List Char} (h : EndsAtLine text)
    (htext : text = read ++ rest) (hrest : rest ≠ []) :
    (Position.start.advance read).line ≤ text.count '\n' := by
  rcases h with rfl | ⟨front, rfl, -⟩
  · exact absurd (List.append_eq_nil_iff.1 htext.symm).2 hrest
  have hlength := congrArg List.length htext
  have hpos := List.length_pos_iff.2 hrest
  rw [List.length_append, List.length_append, List.length_singleton] at hlength
  have hread : read <+: front := List.prefix_of_prefix_length_le ⟨rest, htext.symm⟩
    (List.prefix_append front ['\n']) (by omega)
  have hcount := hread.sublist.count_le '\n'
  rw [Position.line_advance, List.count_append, Nat.add_comm]
  exact Nat.add_le_add_right hcount 1

/-! ### The lexemes of the line -/

theorem lexemes_blanks_append {blanks : List Char} (h : ∀ c ∈ blanks, isBlank c = true)
    (rest : List Char) : lexemes (blanks ++ rest) = blanks.map Lexeme.blank ++ lexemes rest := by
  induction blanks with
  | nil => rfl
  | cons b blanks ih =>
    obtain ⟨hb, hblanks⟩ := List.forall_mem_cons.1 h
    rw [List.cons_append, lexemes_blank hb, ih hblanks]
    rfl

theorem Position.advance_line {p : Position} (hp : p.column = 1) {read : List Char}
    (hread : '\n' ∉ read) : p.advance (read ++ ['\n']) = p.down 1 := by
  rw [Position.advance_append, Position.advance_cons, Position.advance_nil, Position.after,
    if_pos rfl, Position.line_advance, List.count_eq_zero_of_not_mem hread, Position.down, hp]

theorem Cursor.AtLine.newline {c : Cursor} (hc : c.AtLine) (c' : Cursor) {read : List Char}
    (hread : '\n' ∉ read) (hpos : c'.pos = c.pos.advance read) (hdepth : c'.depth = c.depth)
    (hmargin : c'.margin.isNone = c.margin.isNone) :
    c'.tokens .newline = [] ∧ c'.after .newline = c.down 1 := by
  obtain ⟨hcolumn, hc⟩ := hc
  constructor
  · rw [Cursor.tokens, hmargin, hdepth, hc]
    split <;> simp_all
  · have hnext : c'.pos.advance ['\n'] = c.pos.down 1 := by
      rw [hpos, ← Position.advance_append, Position.advance_line hcolumn hread]
    simp only [Cursor.after, Cursor.down, Lexeme.text, Lexeme.depthBehind, hnext, hdepth, hc]

theorem IsBlankLine.exists_line {line : List Char} (h : IsBlankLine line) :
    ∃ read, line = read ++ ['\n'] ∧ '\n' ∉ read := by
  obtain ⟨blanks, comment, rfl, hblanks, hcomment⟩ := h
  have hnewline : '\n' ∉ blanks := fun hmem => by cases hblanks _ hmem
  refine ⟨blanks ++ comment, rfl, ?_⟩
  rcases hcomment with rfl | ⟨text, rfl, htext⟩
  · simpa using hnewline
  · simp [hnewline, htext]

theorem Finds.blankLine {c : Cursor} {blocks out : List Nat} {line tail : List Char}
    {ts : List Token} {ds : List Diagnostic} (hc : c.AtLine) (hline : IsBlankLine line)
    (h : Finds (c.down 1) blocks (lexemes tail) ts ds out) :
    Finds c blocks (lexemes (line ++ tail)) ts ds out := by
  obtain ⟨_, hends, hread⟩ := hline.exists_line
  obtain ⟨blanks, comment, rfl, hblanks, hcomment⟩ := hline
  obtain rfl := (List.append_left_inj _).1 hends
  let c' : Cursor := ⟨c.pos.advance blanks, c.depth, c.margin.map (· ++ blanks)⟩
  rw [List.append_assoc, List.append_assoc, lexemes_blanks_append hblanks, List.singleton_append]
  refine .ofBlanks ?_
  rcases hcomment with rfl | ⟨text, rfl, htext⟩
  · obtain ⟨htokens, hafter⟩ := hc.newline c' hread (by rw [List.append_nil]) rfl Option.isNone_map
    rw [List.nil_append, lexemes_newline]
    exact .quiet rfl htokens rfl hafter h
  obtain ⟨htokens, hafter⟩ := hc.newline (c'.after (.comment text)) hread
    (Position.advance_append ..).symm rfl Option.isNone_map
  have hlast := lexemes_lastComment htext
  have hwhole : Whole ('#' :: text) := by
    unfold Whole
    rw [hlast]
    exact List.forall_mem_singleton.2 rfl
  rw [lexemes_line hwhole, hlast]
  exact .quiet rfl rfl rfl rfl (.quiet rfl htokens rfl hafter h)

/-! ### The tokens -/

/-- A line without tokens moves the tokens behind it down by one line, and leaves those in front
of it where they are. -/
theorem tokenize_blankLine {a b line : String} (ha : EndsAtLine a.toList)
    (hline : IsBlankLine line.toList) {ts : List Token} (h : tokenize (a ++ b) = .ok ts) :
    tokenize (a ++ line ++ b) =
      .ok (ts.map fun t => if t.pos.line ≤ a.toList.count '\n' then t else t.down 1) := by
  unfold tokenize at h ⊢
  rw [String.toList_append] at h
  rw [String.toList_append, String.toList_append, List.append_assoc]
  obtain ⟨found, final, hfinds, hpos, rfl⟩ := tokenizeAt_ok_iff.1 h
  obtain ⟨ps, htext, hatLine, hps⟩ := lexemes_behind ha (hfinds.whole rfl)
  have hsound := lexemes_sound (a.toList ++ b.toList)
  rw [hps] at hfinds hsound
  obtain ⟨front, behind, ds, es, mid, hfront, hbehind, rfl, hnone⟩ := hfinds.split
  obtain ⟨rfl, rfl⟩ := List.append_eq_nil_iff.1 hnone.symm
  obtain ⟨hsound, hsound'⟩ := List.forall_mem_append.1 hsound
  have hstart : ((Cursor.start .start).afterAll ps).pos = Position.start.advance a.toList := by
    rw [Cursor.pos_afterAll, htext]
    rfl
  have hmoved := hfront.append (.blankLine hatLine hline (hbehind.down rfl 1))
  rw [← hps] at hmoved
  have hpos' : (final.down 1).pos =
      Position.start.advance (a.toList ++ (line.toList ++ b.toList)) := by
    obtain ⟨read, hread, hnewline⟩ := hline.exists_line
    rw [Position.advance_append, Position.advance_append, ← hstart, hread,
      Position.advance_line hatLine.1 hnewline, Position.advance_down, hstart,
      ← Position.advance_append, ← hpos]
    rfl
  let place (t : Token) : Token := if t.pos.line ≤ a.toList.count '\n' then t else t.down 1
  have hlower (t : Token) (read : List Char)
      (hread : t.pos = Position.start.advance (a.toList ++ read)) : place t = t.down 1 := by
    refine if_neg ?_
    rw [hread, Position.line_advance, List.count_append]
    simp only [Position.start]
    omega
  have hplaced : front.map place = front := by
    refine (List.map_congr_left fun t ht => if_pos ?_).trans (List.map_id _)
    obtain ⟨read, rest, hall, hrest, hread⟩ := hfront.pos hsound t ht
    rw [hread]
    exact ha.line_le (htext ▸ hall) hrest
  have hmoved' : behind.map place = behind.map (Token.down 1) := by
    refine List.map_congr_left fun t ht => ?_
    obtain ⟨read, -, -, -, hread⟩ := hbehind.pos hsound' t ht
    exact hlower t read (by rw [hread, hstart, Position.advance_append])
  have hclosing : (final.closing (front ++ behind).getLast?).map place =
      (final.closing (front ++ behind).getLast?).map (Token.down 1) :=
    List.map_congr_left fun t ht => hlower t b.toList (by rw [final.closing_pos _ t ht, hpos])
  have hkinds : (front ++ behind.map (Token.down 1)).getLast?.map Token.kind =
      ((front ++ behind).getLast?.map (Token.down 1)).map Token.kind := by
    simp only [← List.getLast?_map, List.map_append, List.map_map]
    rfl
  refine tokenizeAt_ok_iff.2 ⟨_, final.down 1, hmoved, hpos', ?_⟩
  rw [LayoutState.closing_congr _ hkinds, LayoutState.closing_down, List.map_append, List.map_append,
    hplaced, hmoved', hclosing]

/-- A comment that ends in a backslash, less indented than its block and between brackets. -/
theorem tokenize_blankLine_brackets : ∃ ts, tokenize ("if x:\n  y = [1,\n" ++ "2]\n  z") = .ok ts ∧
    ts.map (·.pos.line) = [1, 1, 1, 1, 2, 2, 2, 2, 2, 2, 3, 3, 3, 4, 4, 4, 4] ∧
    tokenize ("if x:\n  y = [1,\n" ++ " \r# c \\\n" ++ "2]\n  z") =
      .ok (ts.map fun t => if t.pos.line ≤ 2 then t else t.down 1) := by
  have hok : (tokenize ("if x:\n  y = [1,\n" ++ "2]\n  z")).toOption.map
      (fun ts => ts.map (·.pos.line)) =
        some [1, 1, 1, 1, 2, 2, 2, 2, 2, 2, 3, 3, 3, 4, 4, 4, 4] := by
    decide +kernel
  cases hts : tokenize ("if x:\n  y = [1,\n" ++ "2]\n  z") with
  | error => rw [hts] at hok; cases hok
  | ok ts =>
    rw [hts] at hok
    refine ⟨ts, rfl, Option.some.inj hok, tokenize_blankLine ?_ ?_ hts⟩
    · exact .inr ⟨"if x:\n  y = [1,".toList, rfl, by decide⟩
    · exact ⟨[' ', '\r'], "# c \\".toList, rfl, by simp [isBlank], .inr ⟨_, rfl, by decide⟩⟩

end Scripting
