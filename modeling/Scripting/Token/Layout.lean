/-
# Tokens and layout of a whole text

The text is read in steps. At the start of a line outside brackets a step looks at
the margin and turns a change of it into `indent` and `dedent` tokens; a line that
holds nothing but blank space and a comment leaves no trace. Inside a line a step
takes one token, a comment, a continued line or the newline. Inside brackets
newlines are blank space.

Every step makes the text shorter or leaves the start of a line
(`LayoutState.step_remaining_lt`), so `LayoutState.run` ends.
-/
import Scripting.Token.Scan

namespace Scripting

/-- The characters that separate tokens within a line. -/
def isBlank (c : Char) : Bool := c == ' ' || c == '\t' || c == '\r'

/-- The column that a margin reaches: a space takes one, a tab goes to the next
multiple of four, a carriage return takes none. -/
def marginWidth (margin : List Char) : Nat :=
  margin.foldl (fun width c =>
    if c == '\t' then (width / 4 + 1) * 4 else if c == ' ' then width + 1 else width) 0

def lineLength (text : List Char) : Nat := (text.takeWhile fun c => c != '\n').length

/-- How far the reading of a text has come. The open blocks are given by their
margins, the innermost first; the margin of the whole text, zero, is not listed. -/
structure LayoutState where
  rest : List Char
  pos : Position
  blocks : List Nat
  depth : Nat
  lineStart : Bool

variable (s : LayoutState)

/-- What one step of reading found. -/
inductive LayoutStep where
  | done (final : LayoutState)
  | next (tokens : List Token) (complaint : Option Diagnostic) (state : LayoutState)

namespace LayoutState

/-- Before the first character of a text that begins at a position. -/
def initial (text : List Char) (pos : Position) : LayoutState where
  rest := text
  pos := pos
  blocks := []
  depth := 0
  lineStart := true

def skip (count : Nat) : LayoutState :=
  { s with rest := s.rest.drop count, pos := s.pos.advance (s.rest.take count) }

def skipBlank : LayoutState :=
  s.skip (s.rest.takeWhile isBlank).length

def skipLine : LayoutState := s.skip (lineLength s.rest)

/-- What is left to do: the characters to come, and the start of a line. -/
def remaining : Nat :=
  2 * s.rest.length + (if s.lineStart then 1 else 0)

/-- The blocks that stay open at a margin, and how many are closed. -/
def closeBlocks (width : Nat) : List Nat → List Nat × Nat
  | [] => ([], 0)
  | block :: outer =>
    if width < block then
      let (kept, closed) := closeBlocks width outer
      (kept, closed + 1)
    else (block :: outer, 0)

/-- A line begins at a margin: a deeper one opens a block, a smaller one closes
every block that is deeper. A margin between two blocks is an error and opens a
block of its own, so that the lines behind it are read sensibly. -/
def enterLine (width : Nat) : LayoutStep :=
  let inLine := { s with lineStart := false }
  let current := s.blocks.headD 0
  if current < width then
    .next [⟨.indent, s.pos⟩] none { inLine with blocks := width :: s.blocks }
  else
    let (kept, closed) := closeBlocks width s.blocks
    let dedents := List.replicate closed ⟨.dedent, s.pos⟩
    if kept.headD 0 = width then .next dedents none { inLine with blocks := kept }
    else
      .next dedents (some ⟨.unmatchedDedent, s.pos⟩) { inLine with blocks := width :: kept }

/-- The step at the start of a line outside brackets. -/
def lineStep : LayoutStep :=
  let margin := s.rest.takeWhile isBlank
  let s := s.skip margin.length
  match s.rest with
  | [] => .next [] none { s with lineStart := false }
  | '\n' :: _ => .next [] none (s.skip 1)
  | '#' :: _ => .next [] none (s.skipLine.skip 1)
  | _ :: _ => s.enterLine (marginWidth margin)

/-- Takes the token at the front of the text. Behind an error the rest of the line
is passed over. -/
def tokenStep (first : Char) (rest : List Char) : LayoutStep :=
  match scanToken first rest with
  | .token kind more =>
    let depth := match kind with
      | .symbol symbol => symbol.depthAfter s.depth
      | _ => s.depth
    .next [⟨kind, s.pos⟩] none { s.skip (more + 1) with depth := depth }
  | .error complaint offset more =>
    let pos := s.pos.advance (s.rest.take offset)
    .next [] (some ⟨complaint, pos⟩) (s.skip (more + 1)).skipLine

/-- The step within a line, or anywhere inside brackets. -/
def inlineStep : LayoutStep :=
  let s := s.skipBlank
  match s.rest with
  | [] => .done s
  | '\n' :: _ =>
    if s.depth = 0 then .next [⟨.newline, s.pos⟩] none { s.skip 1 with lineStart := true }
    else .next [] none (s.skip 1)
  | '#' :: _ => .next [] none s.skipLine
  | '\\' :: '\n' :: _ => .next [] none (s.skip 2)
  | first :: rest => s.tokenStep first rest

def step : LayoutStep :=
  if s.lineStart then s.lineStep else s.inlineStep

@[simp] theorem rest_skip (n : Nat) : (s.skip n).rest = s.rest.drop n := rfl

@[simp] theorem lineStart_skip (n : Nat) :
    (s.skip n).lineStart = s.lineStart := rfl

theorem remaining_skip_le (n : Nat) : (s.skip n).remaining ≤ s.remaining := by
  have shorter : (s.rest.drop n).length ≤ s.rest.length := by simp
  unfold remaining
  rw [rest_skip, lineStart_skip]
  omega

theorem enterLine_remaining_lt {s s' : LayoutState} {width : Nat} {tokens complaint}
    (start : s.lineStart = true) (h : s.enterLine width = .next tokens complaint s') :
    s'.remaining < s.remaining := by
  unfold enterLine at h
  simp only at h
  split at h
  · cases h; simp [remaining, start]
  · split at h <;> · cases h; simp [remaining, start]

theorem lineStep_remaining_lt {s s' : LayoutState} {tokens complaint}
    (start : s.lineStart = true) (h : s.lineStep = .next tokens complaint s') :
    s'.remaining < s.remaining := by
  unfold lineStep at h
  simp only at h
  split at h
  next empty =>
    cases h
    simp only [remaining, start, empty, List.length_nil, if_true]
    exact Nat.succ_pos _
  next rest shape =>
    cases h
    have := congrArg List.length shape
    simp [remaining, start] at this ⊢
    omega
  next rest shape =>
    cases h
    have := congrArg List.length shape
    simp [remaining, start, skipLine] at this ⊢
    omega
  · exact Nat.lt_of_lt_of_le (enterLine_remaining_lt (by simpa using start) h)
      (s.remaining_skip_le _)

theorem tokenStep_remaining_lt {s s' : LayoutState} {first rest tokens complaint}
    (shape : s.rest = first :: rest) (inLine : s.lineStart = false)
    (h : s.tokenStep first rest = .next tokens complaint s') : s'.remaining < s.remaining := by
  have := congrArg List.length shape
  unfold tokenStep at h
  split at h <;>
  · cases h
    simp [remaining, inLine, skipLine] at this ⊢
    omega

theorem inlineStep_remaining_lt {s s' : LayoutState} {tokens complaint}
    (inLine : s.lineStart = false) (h : s.inlineStep = .next tokens complaint s') :
    s'.remaining < s.remaining := by
  have inLine' : s.skipBlank.lineStart = false := inLine
  have skipped : s.skipBlank.remaining ≤ s.remaining := s.remaining_skip_le _
  refine Nat.lt_of_lt_of_le ?_ skipped
  unfold inlineStep at h
  simp only at h
  generalize s.skipBlank = t at h inLine'
  split at h
  · cases h
  next rest shape =>
    have := congrArg List.length shape
    split at h <;>
    · cases h
      simp [remaining, inLine'] at this ⊢
      omega
  next rest shape =>
    cases h
    have positive : 0 < lineLength t.rest := by
      rw [shape]
      simp [lineLength]
    have := congrArg List.length shape
    simp [remaining, inLine', skipLine] at this ⊢
    omega
  next rest shape =>
    cases h
    have := congrArg List.length shape
    simp [remaining, inLine'] at this ⊢
    omega
  next shape =>
    exact tokenStep_remaining_lt shape inLine' h

/-- Every step leaves less to do. -/
theorem step_remaining_lt {s s' : LayoutState} {tokens complaint}
    (h : s.step = .next tokens complaint s') : s'.remaining < s.remaining := by
  unfold step at h
  split at h
  next start => exact lineStep_remaining_lt start h
  next inLine => exact inlineStep_remaining_lt (by simpa using inLine) h

/-- Reads on to the end of the text and adds what is found to the tokens and the
diagnostics so far. -/
def run (s : LayoutState) (tokens : Array Token) (diagnostics : Array Diagnostic) :
    LayoutState × Array Token × Array Diagnostic :=
  match _h : s.step with
  | .done final => (final, tokens, diagnostics)
  | .next found complaint s' =>
    run s' (found.foldl Array.push tokens) (complaint.elim diagnostics diagnostics.push)
termination_by s.remaining
decreasing_by exact step_remaining_lt _h

/-- The tokens that close a text: the end of its last line, the end of every open
block, and the end of the input. -/
def closing (last : Option Token) : List Token :=
  let lineEnd : List Token := match last with
    | none => []
    | some ⟨.newline, _⟩ => []
    | some _ => [⟨.newline, s.pos⟩]
  lineEnd ++ List.replicate s.blocks.length ⟨.dedent, s.pos⟩ ++ [⟨.eof, s.pos⟩]

end LayoutState

/-- The tokens of a text that begins at a position, or everything wrong with it. -/
def tokenizeAt (pos : Position) (text : List Char) : Except (List Diagnostic) (List Token) :=
  let (final, tokens, diagnostics) := (LayoutState.initial text pos).run #[] #[]
  if diagnostics.isEmpty then .ok (tokens.toList ++ final.closing tokens.back?)
  else .error diagnostics.toList

def tokenize (source : String) : Except (List Diagnostic) (List Token) :=
  tokenizeAt .start source.toList

end Scripting
