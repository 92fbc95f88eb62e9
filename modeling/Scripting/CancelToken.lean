/-
# Cancelling an evaluation

A token says whether an evaluation may go on. It is cancelled by a call, which another
holder of the token may make while the evaluation runs, or by a deadline. So what it
says depends on the moment: an evaluation counts the moments as they pass, and the token
knows at which of them something happens to it. Once it has fired it stays so.
-/
import Scripting.Fault

namespace Scripting

/-- Whether an evaluation may go on: whether the token is cancelled already, when the
evaluation has to be over, and when another holder cancels it. -/
structure CancelToken where
  cancelled : Bool
  deadline : Option Nat
  cancelAt : Option Nat
  deriving DecidableEq, Repr

variable (t : CancelToken)

namespace CancelToken

def live : CancelToken := ⟨false, none, none⟩

def expired : CancelToken := ⟨false, some 0, none⟩

/-- A token whose deadline is further ahead than evaluations get. -/
def timed : CancelToken := ⟨false, some (Nat.pow 2 62), none⟩

def cancel : CancelToken := { t with cancelled := true }

def hasDeadline : Bool := t.deadline.isSome

def reached (moment : Option Nat) (now : Nat) : Bool := moment.any (· ≤ now)

def wasCancelled (now : Nat) : Bool := t.cancelled || reached t.cancelAt now

/-- Whether the token has fired by a moment, by a call or by its deadline. -/
def hasFired (now : Nat := 0) : Bool :=
  t.wasCancelled now || reached t.deadline now

def fault? (now : Nat) : Option Fault :=
  if t.wasCancelled now then some (.of .cancellation "execution cancelled")
  else if reached t.deadline now then some (.of .cancellation "deadline exceeded")
  else none

def check (now : Nat := 0) : Except Fault Unit :=
  match t.fault? now with
  | some f => .error f
  | none => .ok ()

variable {t : CancelToken} {now : Nat}

theorem check_of_hasFired (h : t.hasFired now = true) :
    ∃ f, t.check now = .error f ∧ f.kind = .cancellation := by
  unfold check fault?
  by_cases hc : t.wasCancelled now = true
  · rw [if_pos hc]
    exact ⟨_, rfl, rfl⟩
  · have hd : reached t.deadline now = true := by simpa [hasFired, hc] using h
    rw [if_neg hc, if_pos hd]
    exact ⟨_, rfl, rfl⟩

theorem check_of_not_hasFired (h : ¬ t.hasFired now = true) : t.check now = .ok () := by
  have h' : ¬ t.wasCancelled now = true ∧ ¬ reached t.deadline now = true := by
    simpa [hasFired] using h
  unfold check fault?
  rw [if_neg h'.1, if_neg h'.2]

end CancelToken

end Scripting
