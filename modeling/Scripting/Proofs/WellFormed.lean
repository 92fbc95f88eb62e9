/-
# What is read is well formed

Every script that the grammar accepts keeps to the rules, at every depth (`parse_admissible`):
a jump stands inside what it leaves, a loop binds names and groups of them, no parameter
and no keyword comes twice, and the parts of an attempt go together. The rules are checked
in different readers, and what encloses a statement is handed down to the readers of its
blocks. Every reader tells what it reads (`Grammar.exprTracks`, `Grammar.stmtTracks`), and
here the statements of a script are put together.
-/
import Scripting.Proofs.Concatenation

namespace Scripting

theorem parse_sound {source : String} {program : Program} (h : parse source = .ok program) :
    ∀ s ∈ program, s.Sound 1 .top := by
  obtain ⟨ts, hts, hprogram⟩ := parse_eq_ok_iff.1 h
  obtain ⟨n, -, hspells⟩ := Grammar.program_eq_ok_iff.1 hprogram
  obtain ⟨body, p, rfl, hbody⟩ := tokenizeAt_eof hts
  exact (hspells.located hbody (tokenizeAt_line_le hts) (Nat.le_refl _) 0).1

/-- Every statement and every expression of a script that is accepted keeps to its rule
where it stands, at any depth. -/
theorem parse_admissible {source : String} {program : Program} (h : parse source = .ok program) :
    (∀ (n : Nesting) (s : Stmt), s.Stands program n → s.Admissible n) ∧
      ∀ e : Expr, e.Stands program → e.Admissible :=
  ⟨fun _ _ hs => (hs.sound (parse_sound h)).rule, fun _ he => (he.sound (parse_sound h)).rule⟩

/-- A jump out of an attempt in a loop, a function in a handler, and a lambda and a
comprehension in a field of an f-string. -/
def Sample.nestedScript : String :=
  "for x, y in a:\n try:\n  break\n except:\n  def g(p):\n" ++
  "   return f'\x7b[lambda: i for i in p]\x7d'\n"

theorem parse_admissible_nested : ∃ program : Program, program.length = 1 ∧
    parse Sample.nestedScript = .ok program ∧
    (∀ (n : Nesting) (s : Stmt), s.Stands program n → s.Admissible n) ∧
      ∀ e : Expr, e.Stands program → e.Admissible := by
  have hlength : (parse Sample.nestedScript).toOption.map List.length = some 1 := by decide +kernel
  obtain ⟨program, hparse, hlength⟩ := exists_of_length_parse hlength
  exact ⟨program, hlength, hparse, parse_admissible hparse⟩

end Scripting
