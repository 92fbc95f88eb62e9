/-
# Every fault has a line

An evaluation fails with faults from many places, and most are made without a line. A fault
that leaves an evaluation has one. The innermost expression, statement or call around the
place where the fault was made attaches its line, and those further out leave it alone.

The rules of `Stmt.Reports` say who attaches a line. Code that was parsed lies on lines, and
so does every part of it; from this it follows by induction over the rules that all faults have
a line (`Stmt.Reports.located`). Which line it is follows from the way of the fault (`Trail`).
-/
import Scripting.Proofs.Faults.Reports
import Scripting.Proofs.Faults.Trail
import Scripting.Proofs.Run.Sample

namespace Scripting

theorem Fault.one_le_atLine (f : Fault) {line : Nat} (h : 1 ≤ line) : 1 ≤ (f.atLine line).line := by
  unfold Fault.atLine
  split
  · exact h
  · omega

theorem Expr.Work.one_le_line {env : Environment} {e : Expr} (he : e.Sound 1) {line : Nat} {β : Type}
    {act : Run β} (h : e.Work env line act) : 1 ≤ line := by
  cases h with
  | bound p container start stop step part hpart v =>
    exact (he.inside part (.tail _ hpart)).located
  | _ => exact he.located

theorem Stmt.Work.line_eq {env : Environment} {s : Stmt} {line : Nat} {β : Type} {act : Run β}
    (h : s.Work env line act) : line = s.pos.line := by
  cases h <;> rfl

section Located

variable {env : Environment} {own : Fault → Prop}

mutual

theorem Expr.Reports.located {e : Expr} (he : e.Parsed) {f : Fault} : e.Reports env own f → 1 ≤ f.line
  | .work h _ => Fault.one_le_atLine _ (h.one_le_line he.sound)
  | .stop _ _ => Fault.one_le_atLine _ he.sound.located
  | .part hpart h => Expr.Reports.located (he.part hpart) h
  | .call _ h => CallReports.located he.sound.located h

theorem Stmt.Reports.located {n : Nesting} {s : Stmt} (hs : s.Parsed n) {f : Fault} :
    s.Reports env own f → 1 ≤ f.line
  | .work h _ => Fault.one_le_atLine _ (h.line_eq ▸ hs.sound.located)
  | .stop _ => Fault.one_le_atLine _ hs.sound.located
  | .expr he h => Expr.Reports.located (hs.expr he) h
  | .block hbody ht h => Stmt.Reports.located (hs.block (Stmt.mem_blocks_of_runs hbody) ht) h
  | .again ht h => Stmt.Reports.located ht h
  | .noneRaised _ => hs.sound.located

/-- A call on a line attaches that line, unless the fault comes from a body. -/
theorem CallReports.located {line : Nat} (hline : 1 ≤ line) {f : Fault} :
    CallReports env own line f → 1 ≤ f.line
  | .value _ => Fault.one_le_atLine _ hline
  | .arguments _ => Fault.one_le_atLine _ hline
  | .depth _ => hline
  | .body hc ht h => Stmt.Reports.located (hc.stmt ht) h
  | .host _ => Fault.one_le_atLine _ hline

end

end Located

/-! ### Whole evaluations -/

end Scripting
