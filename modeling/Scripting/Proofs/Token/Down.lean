/-
# Tokens of a text further down

Reading a text that begins some lines further down finds the same tokens, each as many
lines further down (`tokenizeAt_down`): what comes of a lexeme does not depend on the
position, which is only carried along.
-/
import Scripting.Proofs.Grammar.Down
import Scripting.Proofs.Token.Lexemes

namespace Scripting

theorem Position.advance_down (k : Nat) : ∀ (text : List Char) (p : Position),
    (p.down k).advance text = (p.advance text).down k
  | [], _ => rfl
  | c :: text, p => by
    have hafter : (p.down k).after c = (p.after c).down k := by
      unfold Position.after Position.down
      split
      · rw [Nat.add_right_comm]
      · rfl
    rw [Position.advance_cons, Position.advance_cons, hafter, advance_down k text]

def Cursor.down (k : Nat) (c : Cursor) : Cursor := { c with pos := c.pos.down k }

theorem Cursor.after_down (k : Nat) (c : Cursor) (lexeme : Lexeme) :
    (c.down k).after lexeme = (c.after lexeme).down k := by
  unfold Cursor.after Cursor.down
  rw [Position.advance_down]

theorem Cursor.tokens_down (k : Nat) (c : Cursor) (lexeme : Lexeme) :
    (c.down k).tokens lexeme = (c.tokens lexeme).map (Token.down k) := by
  cases lexeme with
  | newline =>
    unfold Cursor.tokens Cursor.down
    dsimp only
    split <;> rfl
  | _ => rfl

theorem Enters.down {blocks blocks' : List Nat} {line : ContentLine} {ts : List Token}
    (h : Enters blocks line ts [] blocks') (k : Nat) :
    Enters blocks { line with pos := line.pos.down k } (ts.map (Token.down k)) [] blocks' := by
  cases h with
  | deeper hwidth => exact .deeper hwidth
  | level hwidth hclose hkept =>
    rw [List.map_replicate]
    exact .level hwidth hclose hkept

theorem Finds.down {c : Cursor} {blocks out : List Nat} {ps : List Lexeme} {ts : List Token}
    {ds : List Diagnostic} (h : Finds c blocks ps ts ds out) (hds : ds = []) (k : Nat) :
    Finds (c.down k) blocks ps (ts.map (Token.down k)) [] out := by
  induction h with
  | nil => exact .nil _ _
  | @enter c _ _ _ lexeme _ line _ _ _ _ hline henter _ ih =>
    obtain ⟨rfl, rfl⟩ := List.append_eq_nil_iff.1 hds
    have hline' : (c.down k).line? lexeme = some { line with pos := line.pos.down k } := by
      obtain ⟨hcontent, margin, hmargin, rfl⟩ := Cursor.isContent_of_line? hline
      rw [Cursor.line?, if_pos hcontent, Cursor.down, hmargin]
      rfl
    rw [List.map_append]
    exact .enter hline' (henter.down k) (ih rfl)
  | @pass c _ _ lexeme _ _ _ hline _ ih =>
    obtain ⟨hown, rfl⟩ := List.append_eq_nil_iff.1 hds
    have hline' : (c.down k).line? lexeme = none := by
      unfold Cursor.line? at hline ⊢
      split at hline
      next hcontent => simpa [hcontent, Cursor.down] using hline
      next hcontent => rw [if_neg hcontent]
    have hown' : (c.down k).complaints lexeme = [] := by
      cases lexeme <;> first | rfl | cases hown
    have hnext := Finds.pass hline' (c.after_down k lexeme ▸ ih rfl)
    rwa [c.tokens_down, hown', ← List.map_append] at hnext

namespace LayoutState

def down (k : Nat) (s : LayoutState) : LayoutState := { s with pos := s.pos.down k }

theorem closing_down (k : Nat) (s : LayoutState) (last : Option Token) :
    (s.down k).closing (last.map (Token.down k)) = (s.closing last).map (Token.down k) := by
  cases last with
  | none => simp [closing, Token.down, down]
  | some t =>
    obtain ⟨kind, p⟩ := t
    by_cases hkind : kind = .newline
    · subst hkind
      simp [closing, Token.down, down]
    · have hkind' : (Token.down k ⟨kind, p⟩).kind ≠ .newline := hkind
      rw [Option.map_some, closing_of_last hkind', closing_of_last hkind]
      simp [Token.down, down]

end LayoutState

theorem tokenizeAt_down (k : Nat) {pos : Position} {text : List Char} {ts : List Token}
    (h : tokenizeAt pos text = .ok ts) :
    tokenizeAt (pos.down k) text = .ok (ts.map (Token.down k)) := by
  obtain ⟨found, final, hfinds, hpos, rfl⟩ := tokenizeAt_ok_iff.1 h
  refine tokenizeAt_ok_iff.2 ⟨found.map (Token.down k), final.down k, hfinds.down rfl k, ?_, ?_⟩
  · rw [Position.advance_down, ← hpos]
    rfl
  · rw [List.map_append, List.getLast?_map, LayoutState.closing_down]

end Scripting
