/-
# The lexemes of a text

A text falls into lexemes from its front on: blank characters, newlines, comments, line
continuations, tokens, and stretches that are broken and reach to the end of their line. Which
lexemes these are has nothing to do with blocks, and together they are the text (`flatMap_lexemes`).

Layout comes from the lexemes one by one. A cursor follows them and knows the position, the
number of open brackets, and the margin of the line as long as nothing but blank space and
comments stood in it. The first other lexeme in such a line opens or closes blocks
(`Enters`), and every lexeme adds its own token or complaint (`Finds`). This is what reading a
text in steps comes to (`tokenizeAt_finds`).
-/
import Scripting.Proofs.Token.Extent
import Scripting.Proofs.Token.Steps

namespace Scripting

variable {rest : List Char} {first : Char}

/-! ### Lexemes -/

/-- A lexeme of a text. A comment is given without its hash. A broken lexeme has the place of the
complaint in it and reaches to the end of its line. -/
inductive Lexeme where
  | blank (c : Char)
  | newline
  | comment (text : List Char)
  | continued
  | token (kind : Token.Kind) (text : List Char)
  | broken (complaint : Complaint) (offset : Nat) (text : List Char)

variable {ps : List Lexeme} {lexeme : Lexeme}

namespace Lexeme

def text : Lexeme → List Char
  | .blank c => [c]
  | .newline => ['\n']
  | .comment text => '#' :: text
  | .continued => ['\\', '\n']
  | .token _ text => text
  | .broken _ _ text => text

/-- Whether a line with this lexeme in it is neither blank nor just a comment. -/
def isContent : Lexeme → Bool
  | .blank _ | .newline | .comment _ => false
  | .continued | .token .. | .broken .. => true

def depthBehind (depth : Nat) : Lexeme → Nat
  | .token kind _ => kind.depthBehind depth
  | _ => depth

def isBroken : Lexeme → Bool
  | .broken .. => true
  | _ => false

end Lexeme

def firstLexeme (first : Char) (rest : List Char) : Lexeme :=
  if isBlank first then .blank first
  else match first, rest with
  | '\n', _ => .newline
  | '#', _ => .comment (rest.take (lineLength rest))
  | '\\', '\n' :: _ => .continued
  | _, _ => match scanToken first rest with
    | .token kind more => .token kind (first :: rest.take more)
    | .error complaint offset more =>
      .broken complaint offset (first :: rest.take (more + lineLength (rest.drop more)))

theorem firstLexeme_isPrefix (first : Char) (rest : List Char) :
    (firstLexeme first rest).text <+: first :: rest ∧ (firstLexeme first rest).text ≠ [] := by
  unfold firstLexeme
  split
  · exact ⟨List.prefix_append [first] rest, List.cons_ne_nil _ _⟩
  split
  · exact ⟨List.prefix_append ['\n'] rest, List.cons_ne_nil _ _⟩
  · exact ⟨List.cons_prefix_cons.2 ⟨rfl, List.take_prefix _ _⟩, List.cons_ne_nil _ _⟩
  · exact ⟨List.prefix_append ['\\', '\n'] _, List.cons_ne_nil _ _⟩
  · split <;> exact ⟨List.cons_prefix_cons.2 ⟨rfl, List.take_prefix _ _⟩, List.cons_ne_nil _ _⟩

def lexemes : List Char → List Lexeme
  | [] => []
  | first :: rest =>
    firstLexeme first rest :: lexemes ((first :: rest).drop (firstLexeme first rest).text.length)
termination_by text => text.length
decreasing_by
  have := List.length_pos_iff.2 (firstLexeme_isPrefix first rest).2
  simp only [List.length_drop, List.length_cons]
  omega

/-- What is known of a lexeme of a text. A token is told by its own characters. -/
def Lexeme.Sound : Lexeme → Prop
  | .blank c => isBlank c = true
  | .newline | .continued => True
  | .comment text => ∀ c ∈ text, c ≠ '\n'
  | .token kind text =>
    ∃ first rest, text = first :: rest ∧ scanToken first rest = .token kind rest.length
  | .broken complaint _ text => text ≠ [] ∧ complaint.code ≠ .L004

theorem mem_take_lineLength {text : List Char} {c : Char} (h : c ∈ text.take (lineLength text)) :
    c ≠ '\n' := by
  rw [lineLength, ← List.prefix_iff_eq_take.1 (List.takeWhile_prefix _)] at h
  simpa using List.all_eq_true.1 List.all_takeWhile c h

theorem firstLexeme_sound (first : Char) (rest : List Char) : (firstLexeme first rest).Sound := by
  unfold firstLexeme
  split
  next hblank => exact hblank
  · split
    · exact trivial
    · exact fun c => mem_take_lineLength
    · exact trivial
    split
    next kind more hscan =>
      have hlength : (rest.take more).length = more :=
        List.length_take_of_le (scanToken_length_le hscan)
      exact ⟨first, rest.take more, rfl, by rw [hlength, scanToken_take hscan]⟩
    next hscan => exact ⟨List.cons_ne_nil _ _, scanToken_code hscan⟩

theorem lexemes_sound (text : List Char) : ∀ lexeme ∈ lexemes text, lexeme.Sound := by
  fun_induction lexemes text with
  | case1 => exact fun _ h => nomatch h
  | case2 first rest ih => exact List.forall_mem_cons.2 ⟨firstLexeme_sound first rest, ih⟩

theorem Lexeme.Sound.text_ne_nil : ∀ {lexeme : Lexeme}, lexeme.Sound → lexeme.text ≠ []
  | .blank _, _ | .newline, _ | .comment _, _ | .continued, _ => List.cons_ne_nil _ _
  | .token .., ⟨_, _, htext, _⟩ => by
    rw [Lexeme.text, htext]
    exact List.cons_ne_nil _ _
  | .broken .., h => h.1

theorem lexemes_eq {text more : List Char} (h : text = lexeme.text ++ more)
    (hlexeme : ∀ first rest, text = first :: rest → firstLexeme first rest = lexeme)
    (hne : text ≠ []) : lexemes text = lexeme :: lexemes more := by
  obtain ⟨first, rest, rfl⟩ := List.exists_cons_of_ne_nil hne
  have hfirst := hlexeme first rest rfl
  rw [lexemes, hfirst, h, List.drop_left]

/-- The lexemes of a text together are the text. -/
theorem flatMap_lexemes (text : List Char) : (lexemes text).flatMap Lexeme.text = text := by
  fun_induction lexemes text with
  | case1 => rfl
  | case2 first rest ih =>
    obtain ⟨more, hmore⟩ := (firstLexeme_isPrefix first rest).1
    rw [List.flatMap_cons, ih, ← hmore, List.drop_left]

theorem lexemes_blank {c : Char} (hc : isBlank c = true) (rest : List Char) :
    lexemes (c :: rest) = .blank c :: lexemes rest := by
  refine lexemes_eq rfl (fun first rest h => ?_) (List.cons_ne_nil _ _)
  cases h
  exact if_pos hc

theorem lexemes_blanks (text : List Char) :
    lexemes text = (text.takeWhile isBlank).map Lexeme.blank ++
      lexemes (text.drop (text.takeWhile isBlank).length) := by
  induction text with
  | nil => simp
  | cons c rest ih =>
    by_cases hc : isBlank c = true
    · rw [lexemes_blank hc, ih, List.takeWhile_cons_of_pos hc]
      simp
    · rw [List.takeWhile_cons_of_neg hc]
      rfl

theorem lexemes_newline (rest : List Char) : lexemes ('\n' :: rest) = .newline :: lexemes rest :=
  lexemes_eq rfl (fun first rest h => by cases h; rfl) (List.cons_ne_nil _ _)

theorem lexemes_comment (rest : List Char) : lexemes ('#' :: rest) =
    .comment (rest.take (lineLength rest)) :: lexemes (rest.drop (lineLength rest)) := by
  refine lexemes_eq ?_ (fun first rest h => by cases h; rfl) (List.cons_ne_nil _ _)
  rw [Lexeme.text, List.cons_append, List.take_append_drop]

theorem lexemes_continued (rest : List Char) :
    lexemes ('\\' :: '\n' :: rest) = .continued :: lexemes rest :=
  lexemes_eq rfl (fun first rest h => by cases h; rfl) (List.cons_ne_nil _ _)

theorem firstLexeme_of_scanned (h : Scanned first rest) :
    firstLexeme first rest = match scanToken first rest with
      | .token kind more => .token kind (first :: rest.take more)
      | .error complaint offset more =>
        .broken complaint offset (first :: rest.take (more + lineLength (rest.drop more))) := by
  obtain ⟨hblank, hnewline, hhash, hslash⟩ := h
  unfold firstLexeme
  rw [if_neg (by simp [hblank])]
  split
  · exact absurd rfl hnewline
  · exact absurd rfl hhash
  · exact absurd rfl (hslash rfl _)
  · rfl

theorem firstLexeme_isContent (hblank : isBlank first = false) (hnewline : first ≠ '\n')
    (hhash : first ≠ '#') : (firstLexeme first rest).isContent = true := by
  unfold firstLexeme
  rw [if_neg (by simp [hblank])]
  split
  · exact absurd rfl hnewline
  · exact absurd rfl hhash
  · rfl
  · split <;> rfl

theorem lexemes_token {kind : Token.Kind} {more : Nat}
    (hscan : scanToken first rest = .token kind more) :
    lexemes (first :: rest) =
      .token kind (first :: rest.take more) :: lexemes (rest.drop more) := by
  obtain ⟨-, -, -, hnewline, hhash, hslash⟩ := first_of_scanToken hscan
  have hscanned : Scanned first rest :=
    ⟨LayoutState.isBlank_of_scanToken hscan, hnewline, hhash, fun h => absurd h hslash⟩
  refine lexemes_eq ?_ (fun first rest h => ?_) (List.cons_ne_nil _ _)
  · rw [Lexeme.text, List.cons_append, List.take_append_drop]
  · cases h
    rw [firstLexeme_of_scanned hscanned, hscan]

theorem lexemes_broken {complaint : Complaint} {offset more : Nat} (hscanned : Scanned first rest)
    (hscan : scanToken first rest = .error complaint offset more) :
    lexemes (first :: rest) =
      .broken complaint offset (first :: rest.take (more + lineLength (rest.drop more))) ::
        lexemes (rest.drop (more + lineLength (rest.drop more))) := by
  refine lexemes_eq ?_ (fun first rest h => ?_) (List.cons_ne_nil _ _)
  · rw [Lexeme.text, List.cons_append, List.take_append_drop]
  · cases h
    rw [firstLexeme_of_scanned hscanned, hscan]

/-! ### Lines -/

/-- A line that counts for the layout: where its content begins, and how wide its margin is. -/
structure ContentLine where
  pos : Position
  width : Nat
  deriving DecidableEq, Repr

/-- Where some lexemes lead. The margin is the blank space that the line begins with; it is known
as long as the line may still turn out to be blank, and only if it began outside brackets. -/
structure Cursor where
  pos : Position
  depth : Nat
  margin : Option (List Char)

variable {ts : List Token} {blocks out : List Nat} {c : Cursor} {ds : List Diagnostic}
  {line : ContentLine} {complaint : Option Diagnostic}

namespace Cursor

def start (pos : Position) : Cursor := ⟨pos, 0, some []⟩

def after (c : Cursor) (lexeme : Lexeme) : Cursor where
  pos := c.pos.advance lexeme.text
  depth := lexeme.depthBehind c.depth
  margin := match lexeme with
    | .blank b => c.margin.map (· ++ [b])
    | .comment _ => c.margin
    | .newline => if c.depth = 0 then some [] else none
    | _ => none

/-- The line whose content begins with a lexeme, if there is one. -/
def line? (c : Cursor) (lexeme : Lexeme) : Option ContentLine :=
  if lexeme.isContent then c.margin.map fun margin => ⟨c.pos, marginWidth margin⟩ else none

/-- The token that a lexeme is. A newline is one at the end of a line, but not in brackets, and
not behind blank space only. -/
def tokens (c : Cursor) : Lexeme → List Token
  | .newline => if c.margin.isNone ∧ c.depth = 0 then [⟨.newline, c.pos⟩] else []
  | .token kind _ => [⟨kind, c.pos⟩]
  | _ => []

def complaints (c : Cursor) : Lexeme → List Diagnostic
  | .broken complaint offset text => [⟨complaint, c.pos.advance (text.take offset)⟩]
  | _ => []

end Cursor

/-- The lines of a text that are neither blank nor just a comment and begin outside brackets, not
behind a line continuation. -/
def contentLines : Cursor → List Lexeme → List ContentLine
  | _, [] => []
  | c, lexeme :: ps => (c.line? lexeme).toList ++ contentLines (c.after lexeme) ps

/-! ### Layout -/

/-- What a line does to the open blocks: it opens one, or closes those that are deeper and meets
another, or it fits none and opens one with a complaint. -/
inductive Enters (blocks : List Nat) (line : ContentLine) :
    List Token → List Diagnostic → List Nat → Prop
  | deeper (hwidth : blocks.headD 0 < line.width) :
      Enters blocks line [⟨.indent, line.pos⟩] [] (line.width :: blocks)
  | level {kept : List Nat} {closed : Nat} (hwidth : ¬ blocks.headD 0 < line.width)
      (hclose : LayoutState.closeBlocks line.width blocks = (kept, closed))
      (hkept : kept.headD 0 = line.width) :
      Enters blocks line (List.replicate closed ⟨.dedent, line.pos⟩) [] kept
  | between {kept : List Nat} {closed : Nat} (hwidth : ¬ blocks.headD 0 < line.width)
      (hclose : LayoutState.closeBlocks line.width blocks = (kept, closed))
      (hkept : kept.headD 0 ≠ line.width) :
      Enters blocks line (List.replicate closed ⟨.dedent, line.pos⟩) [⟨.unmatchedDedent, line.pos⟩]
        (line.width :: kept)

/-- The tokens and complaints that come from some lexemes, and the blocks that are open before and
behind them. -/
inductive Finds : Cursor → List Nat → List Lexeme → List Token → List Diagnostic → List Nat → Prop
  | nil (c : Cursor) (blocks : List Nat) : Finds c blocks [] [] [] blocks
  | enter {c : Cursor} {blocks blocks' out : List Nat} {lexeme : Lexeme} {ps : List Lexeme}
      {line : ContentLine} {found more : List Token} {wrong worse : List Diagnostic}
      (hline : c.line? lexeme = some line) (henter : Enters blocks line found wrong blocks')
      (h : Finds { c with margin := none } blocks' (lexeme :: ps) more worse out) :
      Finds c blocks (lexeme :: ps) (found ++ more) (wrong ++ worse) out
  | pass {c : Cursor} {blocks out : List Nat} {lexeme : Lexeme} {ps : List Lexeme}
      {more : List Token} {worse : List Diagnostic} (hline : c.line? lexeme = none)
      (h : Finds (c.after lexeme) blocks ps more worse out) :
      Finds c blocks (lexeme :: ps) (c.tokens lexeme ++ more) (c.complaints lexeme ++ worse) out

theorem closeBlocks_spec {width : Nat} : ∀ {blocks kept : List Nat} {closed : Nat},
    LayoutState.closeBlocks width blocks = (kept, closed) → ∃ deeper, blocks = deeper ++ kept ∧
      deeper.length = closed ∧ (∀ x ∈ deeper, width < x) ∧ kept.headD 0 ≤ width
  | [], _, _, h => by
    cases h
    exact ⟨[], rfl, rfl, nofun, Nat.zero_le _⟩
  | block :: outer, _, _, h => by
    rw [LayoutState.closeBlocks] at h
    split at h
    next hblock =>
      rcases hclose : LayoutState.closeBlocks width outer with ⟨kept, closed⟩
      rw [hclose] at h
      cases h
      obtain ⟨deeper, rfl, rfl, hdeeper, hkept⟩ := closeBlocks_spec hclose
      exact ⟨block :: deeper, rfl, rfl, List.forall_mem_cons.2 ⟨hblock, hdeeper⟩, hkept⟩
    next hblock =>
      cases h
      exact ⟨[], rfl, rfl, nofun, Nat.le_of_not_lt hblock⟩

theorem Cursor.after_of_isContent (h : lexeme.isContent = true) (c : Cursor)
    (margin : Option (List Char)) : { c with margin := margin }.after lexeme = c.after lexeme := by
  cases lexeme with
  | blank | newline | comment => cases h
  | continued | token | broken => rfl

theorem Cursor.isContent_of_line? (h : c.line? lexeme = some line) :
    lexeme.isContent = true ∧
    ∃ margin, c.margin = some margin ∧ line = ⟨c.pos, marginWidth margin⟩ := by
  unfold Cursor.line? at h
  split at h
  next hcontent =>
    obtain ⟨margin, hmargin, rfl⟩ := Option.map_eq_some_iff.1 h
    exact ⟨hcontent, margin, hmargin, rfl⟩
  · cases h

theorem Enters.unique {out' : List Nat} {ts' : List Token} {ds' : List Diagnostic}
    (h : Enters blocks line ts ds out) (h' : Enters blocks line ts' ds' out') :
    ts = ts' ∧ ds = ds' ∧ out = out' := by
  cases h <;> cases h' <;> first | exact ⟨rfl, rfl, rfl⟩ | contradiction | simp_all

/-- Lexemes lead to the same tokens and complaints always. -/
theorem Finds.unique {out' : List Nat} {ts' : List Token} {ds' : List Diagnostic}
    (h : Finds c blocks ps ts ds out) (h' : Finds c blocks ps ts' ds' out') :
    ts = ts' ∧ ds = ds' ∧ out = out' := by
  induction h generalizing ts' ds' with
  | nil => cases h'; exact ⟨rfl, rfl, rfl⟩
  | enter hline henter _ ih =>
    cases h' with
    | enter hline' henter' h' =>
      cases hline.symm.trans hline'
      obtain ⟨rfl, rfl, rfl⟩ := henter.unique henter'
      obtain ⟨rfl, rfl, rfl⟩ := ih h'
      exact ⟨rfl, rfl, rfl⟩
    | pass hline' => cases hline.symm.trans hline'
  | pass hline _ ih =>
    cases h' with
    | enter hline' => cases hline.symm.trans hline'
    | pass _ h' =>
      obtain ⟨rfl, rfl, rfl⟩ := ih h'
      exact ⟨rfl, rfl, rfl⟩

theorem Finds.whole (h : Finds c blocks ps ts ds out) (hds : ds = []) :
    ∀ p ∈ ps, p.isBroken = false := by
  induction h with
  | nil => exact fun _ h => nomatch h
  | enter _ _ _ ih => exact ih (List.append_eq_nil_iff.1 hds).2
  | @pass c _ _ lexeme _ _ _ _ _ ih =>
    obtain ⟨hown, hmore⟩ := List.append_eq_nil_iff.1 hds
    refine List.forall_mem_cons.2 ⟨?_, ih hmore⟩
    cases lexeme with
    | broken => cases hown
    | _ => rfl

theorem Finds.ofBlanks :
    ∀ {blanks : List Char} {c : Cursor},
      Finds ⟨c.pos.advance blanks, c.depth, c.margin.map (· ++ blanks)⟩ blocks ps ts ds out →
      Finds c blocks (blanks.map Lexeme.blank ++ ps) ts ds out
  | [], c, h => by
    simp only [Position.advance_nil, List.append_nil, Option.map_id'] at h
    exact h
  | b :: blanks, c, h => by
    refine .pass rfl (ofBlanks ?_)
    simp only [Cursor.after, Option.map_map, Function.comp_def, List.append_assoc]
    exact h

theorem Finds.quiet {c' : Cursor} (hline : c.line? lexeme = none) (htokens : c.tokens lexeme = [])
    (hcomplaints : c.complaints lexeme = []) (hafter : c.after lexeme = c')
    (h : Finds c' blocks ps ts ds out) : Finds c blocks (lexeme :: ps) ts ds out := by
  subst hafter
  have hpass := Finds.pass hline h
  rwa [htokens, hcomplaints] at hpass

theorem Enters.pos {blocks' : List Nat} {found : List Token} {wrong : List Diagnostic}
    (h : Enters blocks line found wrong blocks') : ∀ t ∈ found, t.pos = line.pos := by
  cases h with
  | deeper => simp
  | level | between => exact fun t ht => congrArg Token.pos (List.eq_of_mem_replicate ht)

theorem Cursor.pos_tokens (c : Cursor) (lexeme : Lexeme) :
    ∀ t ∈ c.tokens lexeme, t.pos = c.pos := by
  cases lexeme with
  | blank | comment | continued | broken => nofun
  | newline =>
    rw [Cursor.tokens]
    split <;> simp
  | token => simp [Cursor.tokens]

theorem Finds.pos (h : Finds c blocks ps ts ds out) (hsound : ∀ p ∈ ps, p.Sound) :
    ∀ t ∈ ts, ∃ read rest, ps.flatMap Lexeme.text = read ++ rest ∧ rest ≠ [] ∧
      t.pos = c.pos.advance read := by
  have hhere {lexeme : Lexeme} {ps : List Lexeme} (hlexeme : lexeme.Sound) :
      (lexeme :: ps).flatMap Lexeme.text ≠ [] := fun hnil =>
    hlexeme.text_ne_nil (List.append_eq_nil_iff.1 hnil).1
  induction h with
  | nil => nofun
  | enter hline henter _ ih =>
    obtain ⟨-, margin, -, rfl⟩ := Cursor.isContent_of_line? hline
    exact List.forall_mem_append.2 ⟨fun t ht =>
      ⟨[], _, rfl, hhere (hsound _ (.head _)), henter.pos t ht⟩, ih hsound⟩
  | @pass c _ _ lexeme _ _ _ _ _ ih =>
    obtain ⟨hlexeme, hsound⟩ := List.forall_mem_cons.1 hsound
    intro t ht
    rcases List.mem_append.1 ht with ht | ht
    · exact ⟨[], _, rfl, hhere hlexeme, c.pos_tokens lexeme t ht⟩
    obtain ⟨read, rest, htext, hrest, hread⟩ := ih hsound t ht
    refine ⟨lexeme.text ++ read, rest, ?_, hrest, ?_⟩
    · rw [List.flatMap_cons, htext, List.append_assoc]
    · rw [hread, Position.advance_append]
      rfl

theorem Finds.kind_ne_eof (h : Finds c blocks ps ts ds out) (hsound : ∀ p ∈ ps, p.Sound) :
    ∀ t ∈ ts, t.kind ≠ .eof := by
  induction h with
  | nil => nofun
  | enter _ henter _ ih =>
    refine List.forall_mem_append.2 ⟨fun t ht => ?_, ih hsound⟩
    cases henter <;> simp_all
  | @pass c _ _ lexeme _ _ _ _ _ ih =>
    obtain ⟨hlexeme, hsound⟩ := List.forall_mem_cons.1 hsound
    refine List.forall_mem_append.2 ⟨fun t ht => ?_, ih hsound⟩
    cases lexeme with
    | newline => simp_all [Cursor.tokens]
    | token kind text =>
      obtain ⟨first, rest, -, hscan⟩ := hlexeme
      cases List.mem_singleton.1 ht
      rintro (rfl : kind = .eof)
      cases scanToken_isSolid hscan
    | _ => cases ht

/-! ### Reading in steps -/

namespace LayoutState

variable {s s' final : LayoutState} {found more : List Token} {worse : List Diagnostic}

@[simp] theorem depth_skipBlank (s : LayoutState) : s.skipBlank.depth = s.depth := rfl

@[simp] theorem lineStart_skipBlank (s : LayoutState) : s.skipBlank.lineStart = s.lineStart := rfl

def cursor (s : LayoutState) : Cursor := ⟨s.pos, s.depth, if s.lineStart then some [] else none⟩

/-- The cursor of a state behind the blank space that comes next. -/
def lexemeCursor (s : LayoutState) : Cursor :=
  ⟨s.skipBlank.pos, s.depth, if s.lineStart then some (s.rest.takeWhile isBlank) else none⟩

theorem finds_skipBlank
    (h : Finds s.lexemeCursor s.blocks (lexemes s.skipBlank.rest) more worse out) :
    Finds s.cursor s.blocks (lexemes s.rest) more worse out := by
  have hpos : s.skipBlank.pos = s.pos.advance (s.rest.takeWhile isBlank) :=
    congrArg s.pos.advance (List.prefix_iff_eq_take.1 (List.takeWhile_prefix _)).symm
  rw [lexemes_blanks]
  refine .ofBlanks ?_
  rw [lexemeCursor, hpos] at h
  unfold cursor
  split
  next hline => rwa [if_pos hline] at h
  next hline => rwa [if_neg hline] at h

theorem finds_enter {first : Char} {rest : List Char} {wrong : List Diagnostic} {blocks : List Nat}
    (hline : s.lineStart = true) (hrest : s.skipBlank.rest = first :: rest)
    (hnewline : first ≠ '\n') (hhash : first ≠ '#')
    (henter : Enters s.blocks ⟨s.skipBlank.pos, marginWidth (s.rest.takeWhile isBlank)⟩
      found wrong blocks)
    (h : Finds ⟨s.skipBlank.pos, s.depth, none⟩ blocks (lexemes s.skipBlank.rest) more worse out) :
    Finds s.cursor s.blocks (lexemes s.rest) (found ++ more) (wrong ++ worse) out := by
  have hcontent : (firstLexeme first rest).isContent = true :=
    firstLexeme_isContent (isBlank_of_rest_skipBlank hrest) hnewline hhash
  refine finds_skipBlank ?_
  rw [hrest, lexemes] at h ⊢
  refine .enter ?_ henter h
  rw [Cursor.line?, if_pos hcontent, lexemeCursor, if_pos hline]
  rfl

theorem finds_pass (lexeme : Lexeme) {wrong : List Diagnostic}
    (hlexemes : lexemes s.skipBlank.rest = lexeme :: lexemes rest)
    (hline : s.lineStart = false ∨ lexeme.isContent = false)
    (htokens : s.lexemeCursor.tokens lexeme = found)
    (hwrong : s.lexemeCursor.complaints lexeme = wrong) (hafter : s.lexemeCursor.after lexeme = c)
    (h : Finds c s.blocks (lexemes rest) more worse out) :
    Finds s.cursor s.blocks (lexemes s.rest) (found ++ more) (wrong ++ worse) out := by
  subst htokens hwrong hafter
  refine finds_skipBlank ?_
  rw [hlexemes]
  refine .pass ?_ h
  unfold Cursor.line?
  rcases hline with hline | hcontent
  · simp [lexemeCursor, hline]
  · rw [hcontent, if_neg Bool.false_ne_true]

theorem skipLine_cons (h : s.rest = first :: rest) (hfirst : first ≠ '\n') :
    s.skipLine = { s with
      rest := rest.drop (lineLength rest),
      pos := s.pos.advance (first :: rest.take (lineLength rest)) } := by
  have hlength : lineLength s.rest = lineLength rest + 1 := by
    rw [h, lineLength, List.takeWhile_cons_of_pos (by simp [hfirst]), List.length_cons]
    rfl
  unfold skipLine skip
  rw [hlength, h, List.take_succ_cons, List.drop_succ_cons]

theorem drop_lineLength (text : List Char) :
    text.drop (lineLength text) = [] ∨ ∃ rest, text.drop (lineLength text) = '\n' :: rest := by
  induction text with
  | nil => exact .inl rfl
  | cons c text ih =>
    by_cases hc : c = '\n'
    · subst hc
      exact .inr ⟨text, rfl⟩
    have hlength : lineLength (c :: text) = lineLength text + 1 := by
      rw [lineLength, List.takeWhile_cons_of_pos (by simp [hc]), List.length_cons]
      rfl
    rw [hlength, List.drop_succ_cons]
    exact ih

theorem Moves.finds (h : Moves s found s') (hdepth : s.lineStart = true → s.depth = 0)
    (hnext : Finds s'.cursor s'.blocks (lexemes s'.rest) more worse out) :
    Finds s.cursor s.blocks (lexemes s.rest) (found ++ more) worse out := by
  cases h with
  | lastLine hline hrest =>
    refine finds_skipBlank ?_
    rw [hrest, lexemes] at hnext ⊢
    cases hnext
    exact .nil _ _
  | @emptyLine rest hline hrest =>
    refine finds_pass .newline ?_ (.inr rfl) ?_ rfl ?_ hnext
    · rw [rest_skip, hrest]
      exact lexemes_newline rest
    · simp [Cursor.tokens, lexemeCursor, hline]
    · simp [Cursor.after, lexemeCursor, cursor, hline, hdepth hline, skip, hrest, Lexeme.text,
        Lexeme.depthBehind]
  | @commentLine rest hline hrest =>
    rw [skipLine_cons hrest (by decide)] at hnext
    refine finds_pass (.comment (rest.take (lineLength rest))) (hrest ▸ lexemes_comment rest)
      (.inr rfl) rfl rfl rfl ?_
    -- The newline behind the comment goes with it, unless the text ends there.
    rcases drop_lineLength rest with hend | ⟨tail, hend⟩
    · rw [hend, lexemes]
      simp only [rest_skip, hend, List.drop_nil, lexemes] at hnext
      cases hnext
      exact .nil _ _
    rw [hend, lexemes_newline]
    simp only [rest_skip, hend, List.drop_one, List.tail_cons] at hnext
    refine .quiet rfl ?_ rfl ?_ hnext
    · simp [Cursor.tokens, Cursor.after, lexemeCursor, hline]
    · simp [Cursor.after, lexemeCursor, cursor, hline, hdepth hline, skip, Lexeme.text,
        Lexeme.depthBehind]
  | deeperLine hline hrest hnewline hhash hwidth =>
    exact finds_enter hline hrest hnewline hhash (.deeper hwidth) hnext
  | line hline hrest hnewline hhash hwidth hclose hkept =>
    exact finds_enter hline hrest hnewline hhash (.level hwidth hclose hkept) hnext
  | @newline rest hline hrest hdepth =>
    refine finds_pass .newline ?_ (.inr rfl) ?_ rfl ?_ hnext
    · rw [rest_skip, hrest]
      exact lexemes_newline rest
    · simp [Cursor.tokens, lexemeCursor, hline, hdepth]
    · simp [Cursor.after, lexemeCursor, cursor, hdepth, skip, hrest, Lexeme.text,
        Lexeme.depthBehind]
  | @brackets rest hline hrest hdepth =>
    refine finds_pass .newline ?_ (.inr rfl) ?_ rfl ?_ hnext
    · rw [rest_skip, hrest]
      exact lexemes_newline rest
    · simp [Cursor.tokens, lexemeCursor, hdepth]
    · simp [Cursor.after, lexemeCursor, cursor, hline, hdepth, skip, hrest, Lexeme.text,
        Lexeme.depthBehind]
  | @comment rest hline hrest =>
    rw [skipLine_cons hrest (by decide)] at hnext
    refine finds_pass (.comment (rest.take (lineLength rest))) (hrest ▸ lexemes_comment rest)
      (.inr rfl) rfl rfl ?_ hnext
    simp [Cursor.after, lexemeCursor, cursor, hline, Lexeme.text, Lexeme.depthBehind]
  | @continued rest hline hrest =>
    refine finds_pass .continued ?_ (.inl hline) rfl rfl ?_ hnext
    · rw [rest_skip, hrest]
      exact lexemes_continued rest
    · simp [Cursor.after, lexemeCursor, cursor, hline, skip, hrest, Lexeme.text, Lexeme.depthBehind]
  | @token first rest kind more hline hrest hscan =>
    refine finds_pass (.token kind (first :: rest.take more)) ?_ (.inl hline) rfl rfl ?_ hnext
    · rw [rest_skip, hrest]
      exact lexemes_token hscan
    · simp [Cursor.after, lexemeCursor, cursor, hline, skip, hrest, Lexeme.text, Lexeme.depthBehind]

theorem Stumbles.finds {d : Diagnostic} (h : Stumbles s found d s')
    (hnext : Finds s'.cursor s'.blocks (lexemes s'.rest) more worse out) :
    Finds s.cursor s.blocks (lexemes s.rest) (found ++ more) ([d] ++ worse) out := by
  cases h with
  | between hline hrest hnewline hhash hwidth hclose hkept =>
    exact finds_enter hline hrest hnewline hhash (.between hwidth hclose hkept) hnext
  | @broken first rest complaint offset more hline hrest hscanned hscan =>
    obtain ⟨hoffset, -⟩ : offset ≤ more ∧ more ≤ rest.length := by
      have hwithin := scanToken_within first rest
      rwa [hscan] at hwithin
    have hlength : lineLength (s.skipBlank.skip (more + 1)).rest = lineLength (rest.drop more) := by
      rw [rest_skip, hrest, List.drop_succ_cons]
    rw [skipLine, hlength, skip_skip, Nat.add_right_comm] at hnext
    have htake : s.skipBlank.rest.take (more + lineLength (rest.drop more) + 1) =
        first :: rest.take (more + lineLength (rest.drop more)) := by
      rw [hrest, List.take_succ_cons]
    refine finds_pass
      (.broken complaint offset (first :: rest.take (more + lineLength (rest.drop more)))) ?_
      (.inl hline) rfl ?_ ?_ hnext
    · rw [rest_skip, hrest]
      exact lexemes_broken hscanned hscan
    · rw [Cursor.complaints, ← htake, List.take_take, Nat.min_eq_left (by omega)]
      rfl
    · simp [Cursor.after, lexemeCursor, cursor, hline, skip, htake, Lexeme.text, Lexeme.depthBehind]

theorem finds_of_step (h : s.step = .next found complaint s')
    (hdepth : s.lineStart = true → s.depth = 0)
    (hnext : Finds s'.cursor s'.blocks (lexemes s'.rest) more worse out) :
    Finds s.cursor s.blocks (lexemes s.rest) (found ++ more) (complaint.toList ++ worse) out := by
  cases complaint with
  | none => exact (moves_of_step h).finds hdepth hnext
  | some d => exact (stumbles_of_step h).finds hnext

theorem Moves.depth_of_lineStart (h : Moves s found s')
    (hdepth : s.lineStart = true → s.depth = 0) :
    s'.lineStart = true → s'.depth = 0 := by
  cases h with
  | emptyLine hline _ | commentLine hline _ => exact fun _ => hdepth hline
  | newline _ _ hzero => exact fun _ => hzero
  | lastLine | deeperLine | line => nofun
  | brackets hline | comment hline | continued hline | token hline =>
    intro hstart
    cases hline.symm.trans hstart

theorem depth_of_step (h : s.step = .next found complaint s')
    (hdepth : s.lineStart = true → s.depth = 0) : s'.lineStart = true → s'.depth = 0 := by
  cases complaint with
  | none => exact (moves_of_step h).depth_of_lineStart hdepth
  | some d =>
    intro hstart
    cases stumbles_of_step h with
    | between => cases hstart
    | broken hline => cases hline.symm.trans hstart

/-- The characters between two states, and the position behind them. -/
def Passes (s s' : LayoutState) (read : List Char) : Prop :=
  s.rest = read ++ s'.rest ∧ s'.pos = s.pos.advance read

theorem Passes.trans {s'' : LayoutState} {read more : List Char} (h : Passes s s' read)
    (h' : Passes s' s'' more) : Passes s s'' (read ++ more) := by
  obtain ⟨hrest, hpos⟩ := h
  obtain ⟨hrest', hpos'⟩ := h'
  exact ⟨by rw [hrest, hrest', List.append_assoc], by rw [hpos', hpos, Position.advance_append]⟩

theorem passes_skip (s : LayoutState) (n : Nat) : Passes s (s.skip n) (s.rest.take n) :=
  ⟨(List.take_append_drop n s.rest).symm, rfl⟩

theorem passes_of_step (h : s.step = .next found complaint s') : ∃ read, Passes s s' read := by
  have hblank := passes_skip s (s.rest.takeWhile isBlank).length
  cases complaint with
  | none =>
    cases moves_of_step h with
    | lastLine | deeperLine | line => exact ⟨_, hblank⟩
    | emptyLine | newline | brackets | comment | continued | token =>
      exact ⟨_, hblank.trans (passes_skip _ _)⟩
    | commentLine => exact ⟨_, (hblank.trans (passes_skip _ _)).trans (passes_skip _ 1)⟩
  | some d =>
    cases stumbles_of_step h with
    | between => exact ⟨_, hblank⟩
    | broken => exact ⟨_, (hblank.trans (passes_skip _ _)).trans (passes_skip _ _)⟩

/-- Reading on to the end finds what the lexemes of the text hold. -/
theorem finds_of_run {tokens all : Array Token} {diagnostics wrong : Array Diagnostic}
    (h : s.run tokens diagnostics = (final, all, wrong))
    (hdepth : s.lineStart = true → s.depth = 0) :
    ∃ found worse, Finds s.cursor s.blocks (lexemes s.rest) found worse final.blocks ∧
      all = tokens ++ found.toArray ∧ wrong = diagnostics ++ worse.toArray ∧
        Passes s final s.rest := by
  induction s, tokens, diagnostics using run.induct with
  | case1 s tokens diagnostics final' hdone =>
    rw [run] at h
    split at h
    next hs =>
      rw [hdone] at hs
      cases hs
      cases h
      obtain ⟨hline, hrest, rfl⟩ := done_of_step hdone
      refine ⟨[], [], finds_skipBlank ?_, by simp, by simp, ?_⟩
      · rw [hrest, lexemes]
        exact .nil _ _
      obtain ⟨hread, hpos⟩ := passes_skip s (s.rest.takeWhile isBlank).length
      rw [show (s.skip _).rest = [] from hrest, List.append_nil] at hread
      rw [← hread] at hpos
      exact ⟨by rw [hrest, List.append_nil], hpos⟩
    next hs => rw [hdone] at hs; cases hs
  | case2 s tokens diagnostics found complaint s' hnext ih =>
    rw [run] at h
    split at h
    next hs => rw [hnext] at hs; cases hs
    next hs =>
      rw [hnext] at hs
      cases hs
      obtain ⟨more, worse, hfinds, hall, hwrong, hpasses⟩ := ih h (depth_of_step hnext hdepth)
      refine ⟨found ++ more, complaint.toList ++ worse, finds_of_step hnext hdepth hfinds,
        ?_, ?_, ?_⟩
      · rw [hall, foldl_push]
        simp
      · cases complaint <;> simp [hwrong]
      · obtain ⟨read, hread⟩ := passes_of_step hnext
        have := hread.trans hpasses
        rwa [← hread.1] at this

/-- The end of the last line, where it is not there. -/
def lineEnd (s : LayoutState) : Option Token → List Token
  | none => []
  | some ⟨.newline, _⟩ => []
  | some _ => [⟨.newline, s.pos⟩]

theorem closing_eq (s : LayoutState) (last : Option Token) : s.closing last =
    s.lineEnd last ++ (List.replicate s.blocks.length ⟨.dedent, s.pos⟩ ++ [⟨.eof, s.pos⟩]) :=
  List.append_assoc (s.lineEnd last) _ _

theorem closing_congr (s : LayoutState) {last last' : Option Token}
    (h : last.map Token.kind = last'.map Token.kind) : s.closing last = s.closing last' := by
  cases last with
  | none =>
    rw [Option.map_eq_none_iff.1 h.symm]
  | some t =>
    obtain ⟨t', rfl, hkind⟩ := Option.map_eq_some_iff.1 h.symm
    by_cases ht : t.kind = .newline
    · obtain ⟨kind, p⟩ := t
      obtain ⟨kind', p'⟩ := t'
      obtain rfl : kind = .newline := ht
      obtain rfl : kind' = .newline := hkind
      rfl
    · rw [closing_of_last ht, closing_of_last (hkind ▸ ht)]

theorem closing_pos (s : LayoutState) (last : Option Token) :
    ∀ t ∈ s.closing last, t.pos = s.pos := by
  intro t ht
  rw [s.closing_eq] at ht
  rcases List.mem_append.1 ht with ht | ht
  · unfold LayoutState.lineEnd at ht
    split at ht
    · cases ht
    · cases ht
    · exact congrArg Token.pos (List.mem_singleton.1 ht)
  · rcases List.mem_append.1 ht with ht | ht
    · exact congrArg Token.pos (List.eq_of_mem_replicate ht)
    · exact congrArg Token.pos (List.mem_singleton.1 ht)

theorem lineEnd_cases (s : LayoutState) (found : List Token) :
    s.lineEnd found.getLast? = [] ∧ (found = [] ∨ ∃ body p, found = body ++ [⟨.newline, p⟩]) ∨
    s.lineEnd found.getLast? = [⟨.newline, s.pos⟩] := by
  cases hlast : found.getLast? with
  | none => exact .inl ⟨rfl, .inl (List.getLast?_eq_none_iff.1 hlast)⟩
  | some t =>
    obtain ⟨kind, p⟩ := t
    obtain ⟨body, hbody⟩ := List.getLast?_eq_some_iff.1 hlast
    cases kind with
    | newline => exact .inl ⟨rfl, .inr ⟨body, p, hbody⟩⟩
    | _ => exact .inr rfl

end LayoutState

/-- The tokens of a text come from its lexemes, in order, and are followed by the closing ones; if
the lexemes give rise to complaints, these are what is wrong with the text. -/
theorem tokenizeAt_finds (pos : Position) (text : List Char) :
    ∃ (found : List Token) (wrong : List Diagnostic) (final : LayoutState),
    Finds (.start pos) [] (lexemes text) found wrong final.blocks ∧ final.pos = pos.advance text ∧
    tokenizeAt pos text =
      if wrong.isEmpty then .ok (found ++ final.closing found.getLast?) else .error wrong := by
  rcases hrun : (LayoutState.initial text pos).run #[] #[] with ⟨final, all, diagnostics⟩
  obtain ⟨found, wrong, hfinds, hall, hwrong, -, hpos⟩ := LayoutState.finds_of_run hrun fun _ => rfl
  refine ⟨found, wrong, final, hfinds, hpos, ?_⟩
  unfold tokenizeAt
  rw [hrun]
  cases wrong with
  | nil => simp [hall, hwrong]
  | cons d wrong => simp [hwrong]

/-- A text has tokens if its lexemes give rise to no complaint. -/
theorem tokenizeAt_ok_iff {pos : Position} {text : List Char} :
    tokenizeAt pos text = .ok ts ↔ ∃ (found : List Token) (final : LayoutState),
      Finds (.start pos) [] (lexemes text) found [] final.blocks ∧
      final.pos = pos.advance text ∧ ts = found ++ final.closing found.getLast? := by
  obtain ⟨found, wrong, final, hfinds, hpos, htokenize⟩ := tokenizeAt_finds pos text
  rw [htokenize]
  constructor
  · intro h
    split at h
    next hwrong =>
      cases h
      rw [List.isEmpty_iff] at hwrong
      exact ⟨found, final, hwrong ▸ hfinds, hpos, rfl⟩
    · cases h
  rintro ⟨found', final', hfinds', hpos', rfl⟩
  obtain ⟨rfl, rfl, hblocks⟩ := hfinds.unique hfinds'
  rw [List.isEmpty_nil, if_pos rfl]
  unfold LayoutState.closing
  rw [hpos, hpos', hblocks]

theorem Position.line_advance : ∀ (text : List Char) (p : Position),
    (p.advance text).line = p.line + text.count '\n'
  | [], _ => rfl
  | c :: text, p => by
    rw [Position.advance_cons, line_advance text, List.count_cons, Position.after]
    by_cases hc : c = '\n'
    · simp [hc]
      omega
    · simp [hc]

theorem tokenizeAt_pos {pos : Position} {text : List Char} (h : tokenizeAt pos text = .ok ts) :
    ∀ t ∈ ts, ∃ read, t.pos = pos.advance read := by
  obtain ⟨found, final, hfinds, hpos, rfl⟩ := tokenizeAt_ok_iff.1 h
  intro t ht
  rcases List.mem_append.1 ht with ht | ht
  · obtain ⟨read, -, -, -, hread⟩ := hfinds.pos (lexemes_sound text) t ht
    exact ⟨read, hread⟩
  · exact ⟨text, by rw [final.closing_pos _ t ht, hpos]⟩

theorem tokenizeAt_line_le {pos : Position} {text : List Char} (h : tokenizeAt pos text = .ok ts) :
    ∀ t ∈ ts, pos.line ≤ t.pos.line := by
  intro t ht
  obtain ⟨read, hread⟩ := tokenizeAt_pos h t ht
  rw [hread, Position.line_advance]
  omega

/-- The tokens of a text end with the end of the input, which stands nowhere else. -/
theorem tokenizeAt_eof {pos : Position} {text : List Char} (h : tokenizeAt pos text = .ok ts) :
    ∃ body p, ts = body ++ [⟨.eof, p⟩] ∧ ∀ t ∈ body, t.kind ≠ .eof := by
  obtain ⟨found, final, hfinds, -, rfl⟩ := tokenizeAt_ok_iff.1 h
  refine ⟨found ++ (final.lineEnd found.getLast? ++
      List.replicate final.blocks.length ⟨.dedent, final.pos⟩), final.pos,
    by simp only [final.closing_eq, List.append_assoc], fun t ht => ?_⟩
  rcases List.mem_append.1 ht with ht | ht
  · exact hfinds.kind_ne_eof (lexemes_sound text) t ht
  rcases List.mem_append.1 ht with ht | ht
  · rcases final.lineEnd_cases found with ⟨hend, -⟩ | hend <;> simp_all
  · simp_all

end Scripting
