/-
# The steps of reading a text

Reading a text is a sequence of steps. What a step can do at all is listed once: it comes to the end
of the text, it finds nothing wrong (`LayoutState.Moves`), or it finds a line that fits no block or
a broken token (`LayoutState.Stumbles`). What holds of every reading is proved from that list.
-/
import Scripting.Proofs.Token.Scan
import Scripting.Token.Layout

namespace Scripting

namespace Token.Kind

/-- The number of open brackets behind a token. -/
def depthBehind (depth : Nat) : Token.Kind → Nat
  | .symbol s => s.depthAfter depth
  | _ => depth

def levelBehind (level : Nat) : Token.Kind → Nat
  | .indent => level + 1
  | .dedent => level - 1
  | _ => level

theorem levelBehind_of_isSolid {kind : Token.Kind} (h : kind.isSolid = true) (level : Nat) :
    kind.levelBehind level = level := by
  cases kind <;> first | rfl | cases h

end Token.Kind

/-- The characters at which a token is looked for. -/
def Scanned (first : Char) (rest : List Char) : Prop :=
  isBlank first = false ∧ first ≠ '\n' ∧ first ≠ '#' ∧ (first = '\\' → ∀ more, rest ≠ '\n' :: more)

namespace LayoutState

theorem foldl_push (found : List Token) (tokens : Array Token) :
    found.foldl Array.push tokens = tokens ++ found.toArray := by
  simp

/-- A step that finds nothing wrong. At the start of a line the line may be empty, or
hold a comment only, or it begins at its margin. Within a line there is its end, which
counts outside brackets only, a comment, a line that is continued, or a token. -/
inductive Moves : LayoutState → List Token → LayoutState → Prop
  | lastLine {s : LayoutState} (hline : s.lineStart = true) (hrest : s.skipBlank.rest = []) :
      Moves s [] { s.skipBlank with lineStart := false }
  | emptyLine {s : LayoutState} {rest : List Char} (hline : s.lineStart = true)
      (hrest : s.skipBlank.rest = '\n' :: rest) : Moves s [] (s.skipBlank.skip 1)
  | commentLine {s : LayoutState} {rest : List Char} (hline : s.lineStart = true)
      (hrest : s.skipBlank.rest = '#' :: rest) : Moves s [] (s.skipBlank.skipLine.skip 1)
  | deeperLine {s : LayoutState} {first : Char} {rest : List Char} (hline : s.lineStart = true)
      (hrest : s.skipBlank.rest = first :: rest) (hnewline : first ≠ '\n') (hhash : first ≠ '#')
      (hwidth : s.blocks.headD 0 < marginWidth (s.rest.takeWhile isBlank)) :
      Moves s [⟨.indent, s.skipBlank.pos⟩] { s.skipBlank with
        lineStart := false, blocks := marginWidth (s.rest.takeWhile isBlank) :: s.blocks }
  | line {s : LayoutState} {first : Char} {rest : List Char} {kept : List Nat} {closed : Nat}
      (hline : s.lineStart = true) (hrest : s.skipBlank.rest = first :: rest)
      (hnewline : first ≠ '\n') (hhash : first ≠ '#')
      (hwidth : ¬ s.blocks.headD 0 < marginWidth (s.rest.takeWhile isBlank))
      (hclose : closeBlocks (marginWidth (s.rest.takeWhile isBlank)) s.blocks = (kept, closed))
      (hkept : kept.headD 0 = marginWidth (s.rest.takeWhile isBlank)) :
      Moves s (List.replicate closed ⟨.dedent, s.skipBlank.pos⟩)
        { s.skipBlank with lineStart := false, blocks := kept }
  | newline {s : LayoutState} {rest : List Char} (hline : s.lineStart = false)
      (hrest : s.skipBlank.rest = '\n' :: rest) (hdepth : s.depth = 0) :
      Moves s [⟨.newline, s.skipBlank.pos⟩] { s.skipBlank.skip 1 with lineStart := true }
  | brackets {s : LayoutState} {rest : List Char} (hline : s.lineStart = false)
      (hrest : s.skipBlank.rest = '\n' :: rest) (hdepth : s.depth ≠ 0) :
      Moves s [] (s.skipBlank.skip 1)
  | comment {s : LayoutState} {rest : List Char} (hline : s.lineStart = false)
      (hrest : s.skipBlank.rest = '#' :: rest) : Moves s [] s.skipBlank.skipLine
  | continued {s : LayoutState} {rest : List Char} (hline : s.lineStart = false)
      (hrest : s.skipBlank.rest = '\\' :: '\n' :: rest) : Moves s [] (s.skipBlank.skip 2)
  | token {s : LayoutState} {first : Char} {rest : List Char} {kind : Token.Kind} {more : Nat}
      (hline : s.lineStart = false) (hrest : s.skipBlank.rest = first :: rest)
      (hscan : scanToken first rest = .token kind more) :
      Moves s [⟨kind, s.skipBlank.pos⟩]
        { s.skipBlank.skip (more + 1) with depth := kind.depthBehind s.depth }

theorem isBlank_of_rest_skipBlank {s : LayoutState} {first : Char} {rest : List Char}
    (h : s.skipBlank.rest = first :: rest) : isBlank first = false := by
  have hdrop : (s.rest.takeWhile isBlank ++ s.rest.dropWhile isBlank).drop
      (s.rest.takeWhile isBlank).length = s.rest.dropWhile isBlank := List.drop_left
  have hhead := List.head?_dropWhile_not isBlank s.rest
  rw [List.takeWhile_append_dropWhile, show s.rest.drop _ = first :: rest from h] at hdrop
  rw [← hdrop] at hhead
  simpa using hhead

/-- A step that finds something wrong: a line that fits no block, or a broken token. -/
inductive Stumbles : LayoutState → List Token → Diagnostic → LayoutState → Prop
  | between {s : LayoutState} {first : Char} {rest : List Char} {kept : List Nat} {closed : Nat}
      (hline : s.lineStart = true) (hrest : s.skipBlank.rest = first :: rest)
      (hnewline : first ≠ '\n') (hhash : first ≠ '#')
      (hwidth : ¬ s.blocks.headD 0 < marginWidth (s.rest.takeWhile isBlank))
      (hclose : closeBlocks (marginWidth (s.rest.takeWhile isBlank)) s.blocks = (kept, closed))
      (hkept : kept.headD 0 ≠ marginWidth (s.rest.takeWhile isBlank)) :
      Stumbles s (List.replicate closed ⟨.dedent, s.skipBlank.pos⟩)
        ⟨.unmatchedDedent, s.skipBlank.pos⟩
        { s.skipBlank with
          lineStart := false, blocks := marginWidth (s.rest.takeWhile isBlank) :: kept }
  | broken {s : LayoutState} {first : Char} {rest : List Char} {complaint : Complaint}
      {offset more : Nat} (hline : s.lineStart = false) (hrest : s.skipBlank.rest = first :: rest)
      (hscanned : Scanned first rest)
      (hscan : scanToken first rest = .error complaint offset more) :
      Stumbles s [] ⟨complaint, s.skipBlank.pos.advance (s.skipBlank.rest.take offset)⟩
        (s.skipBlank.skip (more + 1)).skipLine

/-- What comes of a step: the end of the text, or more of it with or without something wrong. -/
inductive Steps (s : LayoutState) : LayoutStep → Prop
  | done (hline : s.lineStart = false) (hrest : s.skipBlank.rest = []) : Steps s (.done s.skipBlank)
  | moves {s' : LayoutState} {found : List Token} (h : Moves s found s') :
      Steps s (.next found none s')
  | stumbles {s' : LayoutState} {found : List Token} {d : Diagnostic} (h : Stumbles s found d s') :
      Steps s (.next found (some d) s')

theorem steps_step (s : LayoutState) : Steps s s.step := by
  unfold step
  split
  next hline =>
    unfold lineStep enterLine
    dsimp only
    split
    next hrest => exact .moves (.lastLine hline hrest)
    next hrest => exact .moves (.emptyLine hline hrest)
    next hrest => exact .moves (.commentLine hline hrest)
    next hnewline hhash hrest =>
      split
      next hwidth => exact .moves (.deeperLine hline hrest hnewline hhash hwidth)
      next hwidth =>
        split
        next hkept => exact .moves (.line hline hrest hnewline hhash hwidth rfl hkept)
        next hkept => exact .stumbles (.between hline hrest hnewline hhash hwidth rfl hkept)
  next hline =>
    rw [Bool.not_eq_true] at hline
    unfold inlineStep
    dsimp only
    split
    next hrest => exact .done hline hrest
    next hrest =>
      split
      next hdepth => exact .moves (.newline hline hrest hdepth)
      next hdepth => exact .moves (.brackets hline hrest hdepth)
    next hrest => exact .moves (.comment hline hrest)
    next hrest => exact .moves (.continued hline hrest)
    next hnewline hhash hslash hrest =>
      unfold tokenStep
      split
      next hscan => exact .moves (.token hline hrest hscan)
      next hscan =>
        refine .stumbles (.broken hline hrest ⟨isBlank_of_rest_skipBlank hrest, hnewline, hhash, ?_⟩
          hscan)
        exact fun h more => hslash more h

theorem moves_of_step {s s' : LayoutState} {found : List Token}
    (h : s.step = .next found none s') : Moves s found s' := by
  have hsteps := s.steps_step
  rw [h] at hsteps
  cases hsteps
  assumption

theorem stumbles_of_step {s s' : LayoutState} {found : List Token} {d : Diagnostic}
    (h : s.step = .next found (some d) s') : Stumbles s found d s' := by
  have hsteps := s.steps_step
  rw [h] at hsteps
  cases hsteps
  assumption

theorem done_of_step {s final : LayoutState} (h : s.step = .done final) :
    s.lineStart = false ∧ s.skipBlank.rest = [] ∧ final = s.skipBlank := by
  have hsteps := s.steps_step
  rw [h] at hsteps
  cases hsteps with
  | done hline hrest => exact ⟨hline, hrest, rfl⟩

theorem skip_skip (s : LayoutState) (m n : Nat) : (s.skip m).skip n = s.skip (m + n) := by
  simp only [skip, List.drop_drop, List.take_add, Position.advance_append]

theorem isBlank_of_scanToken {first : Char} {rest : List Char} {kind : Token.Kind} {more : Nat}
    (h : scanToken first rest = .token kind more) : isBlank first = false := by
  obtain ⟨hspace, htab, hreturn, -⟩ := first_of_scanToken h
  simp [isBlank, hspace, htab, hreturn]

theorem closing_of_last {t : Token} (h : t.kind ≠ .newline) (s : LayoutState) :
    s.closing (some t) = ⟨.newline, s.pos⟩ ::
      (List.replicate s.blocks.length ⟨.dedent, s.pos⟩ ++ [⟨.eof, s.pos⟩]) := by
  unfold closing
  dsimp only
  split
  next h' => cases h'
  next h' => cases h'; exact absurd rfl h
  · rfl

end LayoutState

end Scripting
