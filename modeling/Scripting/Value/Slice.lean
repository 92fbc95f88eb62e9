/-
# Positions in sequences

A negative position counts from the end. A slice takes the positions from its start
in its steps, up to and without its stop. Bounds beyond the sequence are moved to
its ends, and a bound that is left out is the end it would come from or go to.
-/
import Scripting.Fault
import Scripting.Number.Word

namespace Scripting

/-- The position an index stands for in a sequence of some length. -/
def positionOf? (index : Int64) (length : Nat) : Option Nat :=
  let place := if index.toInt < 0 then index.toInt + length else index.toInt
  if 0 ≤ place ∧ place < length then some place.toNat else none

/-- The three bounds of a slice, each of which may be left out. -/
structure SliceBounds where
  start : Option Int64
  stop : Option Int64
  step : Option Int64

def stepCount (start stop step : Int) : Nat :=
  if 0 < step then (if start < stop then ((stop - start - 1) / step + 1).toNat else 0)
  else if stop < start then ((start - stop - 1) / (-step) + 1).toNat else 0

/-- The positions from a place on in steps, as far as they lie before the stop, behind those
picked so far. They end, too, where the next place would be no word. -/
def picksFrom (step stop : Int64) (picked : Array Nat) (place : Int64) : Array Nat :=
  if 0 < step ∧ place < stop ∨ step < 0 ∧ stop < place then
    match _h : Word64.add? place step with
    | some next => picksFrom step stop (picked.push place.toUInt64.toNat) next
    | none => picked.push place.toUInt64.toNat
  else picked
termination_by ((stop.toInt - place.toInt) * step.toInt.sign).toNat
decreasing_by
  rename_i before
  have hnext := Word64.ofInt?_eq_some_iff.1 _h
  simp only [Int64.lt_iff_toInt_lt, Int64.toInt_zero] at before
  rcases before with ⟨hstep, hplace⟩ | ⟨hstep, hplace⟩
  · rw [Int.sign_eq_one_of_pos hstep, hnext]
    omega
  · rw [Int.sign_eq_neg_one_of_neg hstep, hnext]
    omega

section Plain

variable {m : Type → Type} [Monad m] (plain : Int → m Int64)

/-- A bound, counted from the front and moved between two ends. -/
def clampedWith (size low high bound : Int64) : m Int64 := do
  let place ← (if bound < 0 then plain (bound.toInt + size.toInt) else pure bound)
  return if place < low then low else if high < place then high else place

/-- The positions that a slice takes from a sequence of some length, made with plain
operations. -/
def slicePositionsWith (length : Nat) (bounds : SliceBounds) : m (Except Fault (List Nat)) :=
  let step := bounds.step.getD 1
  if step = 0 then pure (.error (argumentFault "slice step cannot be zero"))
  else do
    let size := (Word64.ofInt? length).getD Int64.maxValue
    let low : Int64 := if 0 < step then 0 else -1
    let high ← (if 0 < step then pure size else plain (size.toInt - 1))
    let clamped := clampedWith plain size low high
    let start ← bounds.start.elim (pure (if 0 < step then low else high)) clamped
    let stop ← bounds.stop.elim (pure (if 0 < step then high else low)) clamped
    return .ok (picksFrom step stop #[] start).toList

end Plain

/-- The positions that a slice takes from a sequence of some length. -/
def slicePositions (length : Nat) (bounds : SliceBounds) : Except Fault (List Nat) :=
  Id.run (slicePositionsWith Word64.wrapped length bounds)

end Scripting
