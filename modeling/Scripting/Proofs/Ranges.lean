/-
# Ranges

A range is the start and what follows it in steps, as far as it lies before the stop. It is
refused exactly if it has more terms than the limit. Each term is the start and a multiple of the
step, and it is a word, because it lies between the two bounds.

The multiple itself need not be one: bounds at opposite ends of the words are farther apart than
any word is large. It wraps around then, and the sum wraps back, so that the term is right
(`progressionWith_wrapped`); but where a plain result that is no word ends the computation, there
is no range (`progressionWith_checked_iff`, `range_across_words`).
-/
import Scripting.Builtin
import Scripting.Proofs.Number.Words
import Scripting.Proofs.Traverse
import Scripting.Proofs.Slicing

namespace Scripting

variable {start step : Int64} {k : Nat}

/-! ### Terms -/

/-- Whether a number lies before a stop in the direction of a step. -/
def BeforeStop (stop step n : Int) : Prop := if 0 < step then n < stop else stop < n

instance (stop step n : Int) : Decidable (BeforeStop stop step n) :=
  inferInstanceAs (Decidable (ite _ _ _))

theorem BeforeStop.between {start stop step : Int} (h : BeforeStop stop step (start + k * step)) :
    (0 ≤ k * step ∧ k * step < stop - start) ∨ (stop - start < k * step ∧ k * step ≤ 0) := by
  unfold BeforeStop at h
  split at h
  next hpos =>
    have : 0 ≤ (k : Int) * step := Int.mul_nonneg (by omega) (Int.le_of_lt hpos)
    omega
  next hneg =>
    have : (k : Int) * step ≤ 0 :=
      Int.mul_nonpos_of_nonneg_of_nonpos (by omega) (Int.not_lt.1 hneg)
    omega

theorem BeforeStop.fits {stop : Int64}
    (h : BeforeStop stop.toInt step.toInt (start.toInt + k * step.toInt)) :
    Word64.fits (start.toInt + k * step.toInt) = true := by
  have hstart := Word64.fits_iff.1 (Word64.fits_toInt start)
  have hstop := Word64.fits_iff.1 (Word64.fits_toInt stop)
  refine Word64.fits_iff.2 ?_
  rcases h.between with hup | hdown <;> omega

namespace Word64

/-- A multiple that wraps around is put right by the sum. -/
theorem termWith_wrapped (start step : Int64) (k : Nat) :
    Id.run (termWith wrapped start step k) = Int64.ofInt (start.toInt + k * step.toInt) := by
  change Int64.ofInt (start.toInt + (Int64.ofInt (k * step.toInt)).toInt) = _
  rw [Int64.ofInt_add, Int64.ofInt_toInt (Int64.ofInt (k * step.toInt)), ← Int64.ofInt_add]

/-- Where plain results are checked, a term is there if its multiple of the step is a word. -/
theorem termWith_checked (h : fits (start.toInt + k * step.toInt) = true) :
    termWith ofInt? start step k =
      if fits (k * step.toInt) then some (Int64.ofInt (start.toInt + k * step.toInt)) else none := by
  unfold termWith
  split
  next hfits =>
    obtain ⟨offset, hoffset⟩ := exists_word hfits
    rw [ofInt?_eq_some_iff.2 hoffset, Option.bind_eq_bind, Option.bind_some, hoffset, ofInt?,
      if_pos h]
  next hnot =>
    rw [ofInt?_eq_none_iff.2 hnot]
    rfl

/-! ### Ranges -/

/-- The words of a progression whose terms are words. -/
def terms (start step : Int64) (count : Nat) : List Int64 :=
  (List.range count).map fun (k : Nat) => Int64.ofInt (start.toInt + k * step.toInt)

theorem progressionWith_wrapped (start step : Int64) (count : Nat) :
    Id.run (progressionWith wrapped start step count) = terms start step count := by
  rw [progressionWith, List.idRun_mapM, terms]
  simp only [termWith_wrapped]

/-- Where plain results are checked, there are terms exactly if all multiples of the step are
words. -/
theorem progressionWith_checked_iff {count : Nat}
    (h : ∀ k < count, fits (start.toInt + k * step.toInt) = true) :
    progressionWith ofInt? start step count = some (terms start step count) ↔
      ∀ k < count, fits (k * step.toInt) = true := by
  constructor
  · intro hterms k hk
    by_contra hnot
    have hnone : termWith ofInt? start step k = none := by rw [termWith_checked (h k hk), if_neg hnot]
    rw [progressionWith, mapM_of_exists_none ⟨k, List.mem_range.2 hk, hnone⟩] at hterms
    cases hterms
  intro hfits
  refine mapM_of_forall_some fun k hk => ?_
  have hk := List.mem_range.1 hk
  rw [termWith_checked (h k hk), if_pos (hfits k hk)]

theorem toInt_terms {count : Nat} (hk : k < (terms start step count).length)
    (h : fits (start.toInt + k * step.toInt) = true) :
    ((terms start step count)[k]).toInt = start.toInt + k * step.toInt := by
  obtain ⟨hlow, hhigh⟩ := fits_iff.1 h
  simp only [terms, List.getElem_map, List.getElem_range]
  exact Int64.toInt_ofInt_of_le hlow hhigh

end Word64

theorem run_range (start stop : Int64) (hstep : step ≠ 0) (quiet : Bool)
    (call : Caller) (w : World) {count : Nat}
    (hcount : stepCount start.toInt stop.toInt step.toInt = count) :
    Builtin.range.run quiet call [.int start, .int stop, .int step] .empty w =
      if rangeLimit < count then
        .fault (overflowFault s!"range() of {count} items is too large") w
      else .ok (.list w.nextList)
        (w.withList ((Word64.terms start step count).map Value.int).toArray) := by
  have hitems : rangeItems start stop step =
      if rangeLimit < count then
        .error (overflowFault s!"range() of {count} items is too large")
      else .ok ((Word64.terms start step count).map Value.int) := by
    rw [rangeItems, if_neg hstep, hcount]
    simp only [Word64.progressionWith_wrapped]
  change (Run.ofExcept (rangeItems start stop step) >>= fun items => Run.newList items.toArray) w = _
  rw [hitems]
  split <;> rfl

theorem BeforeStop.offset_fits {start stop step : Int}
    (h : BeforeStop stop step (start + k * step)) (hdist : Word64.fits (stop - start) = true) :
    Word64.fits (k * step) = true := by
  have hdist := Word64.fits_iff.1 hdist
  refine Word64.fits_iff.2 ?_
  rcases h.between with hup | hdown <;> omega

/-- A range has as many terms as lie before the stop. More terms than the limit are refused, and
up to it they are listed in order. Where plain results are checked the list is the same exactly if
all multiples of the step are words, and they are if the distance of the bounds is one. -/
theorem ranges_are_progressions (start stop step : Int64) (hstep : step ≠ 0) :
    ∃ count : Nat,
      (∀ k, k < count ↔ BeforeStop stop.toInt step.toInt (start.toInt + k * step.toInt)) ∧
      (10000000 < count → ∀ (quiet : Bool) (call : Caller) (w : World),
        Builtin.range.run quiet call [.int start, .int stop, .int step] .empty w =
          .fault (overflowFault s!"range() of {count} items is too large") w) ∧
      (count ≤ 10000000 → ∃ words : List Int64,
        words.length = count ∧
        (∀ k (hk : k < words.length), words[k].toInt = start.toInt + k * step.toInt) ∧
        (∀ (quiet : Bool) (call : Caller) (w : World),
          Builtin.range.run quiet call [.int start, .int stop, .int step] .empty w =
            .ok (.list w.nextList) (w.withList (words.map Value.int).toArray)) ∧
        (Word64.progressionWith Word64.ofInt? start step count = some words ↔
          ∀ k < count, Word64.fits (k * step.toInt) = true) ∧
        (Word64.fits (stop.toInt - start.toInt) = true →
          Word64.progressionWith Word64.ofInt? start step count = some words)) := by
  obtain ⟨count, hcount⟩ : ∃ count, stepCount start.toInt stop.toInt step.toInt = count := ⟨_, rfl⟩
  have hbefore (k : Nat) :
      k < count ↔ BeforeStop stop.toInt step.toInt (start.toInt + k * step.toInt) := by
    rw [← hcount]
    exact lt_stepCount (Word64.toInt_ne_zero hstep) k
  have hlength : (Word64.terms start step count).length = count := by simp [Word64.terms]
  have hchecked := Word64.progressionWith_checked_iff fun k hk => ((hbefore k).1 hk).fits
  refine ⟨count, hbefore, fun hmany quiet call w => ?_, fun hfew => ?_⟩
  · rw [run_range start stop hstep quiet call w hcount, rangeLimit, if_pos hmany]
  refine ⟨Word64.terms start step count, hlength, fun k hk => ?_, fun quiet call w => ?_,
    hchecked, fun hdist => ?_⟩
  · exact Word64.toInt_terms hk ((hbefore k).1 (hlength ▸ hk)).fits
  · rw [run_range start stop hstep quiet call w hcount, rangeLimit, if_neg (Nat.not_lt.2 hfew)]
  · exact hchecked.2 fun k hk => ((hbefore k).1 hk).offset_fits hdist

/-- Down from five to the least word in steps of the greatest one: two terms. -/
theorem ranges_are_progressions_down :
    (-Int64.maxValue) ≠ 0 ∧ ∃ words : List Int64,
      words.map Int64.toInt = [5, -9223372036854775802] ∧
      ∀ (quiet : Bool) (call : Caller) (w : World),
        Builtin.range.run quiet call [.int 5, .int Int64.minValue, .int (-Int64.maxValue)] .empty w =
          .ok (.list w.nextList) (w.withList (words.map Value.int).toArray) := by
  have hstep : (-Int64.maxValue) ≠ 0 := by decide
  obtain ⟨count, hcount, -, hfew⟩ :=
    ranges_are_progressions 5 Int64.minValue (-Int64.maxValue) hstep
  have htwo : count = 2 := by
    have h₁ : 1 < count := (hcount 1).2 (by decide)
    have h₂ : ¬ 2 < count := fun h => absurd ((hcount 2).1 h) (by decide)
    omega
  obtain ⟨words, hlength, hterms, hrun, -, -⟩ := hfew (by omega)
  refine ⟨hstep, words, ?_, hrun⟩
  match words, hlength.trans htwo with
  | [a, b], _ =>
    have ha := hterms 0 (by simp)
    have hb := hterms 1 (by simp)
    simp only [List.getElem_cons_zero, List.getElem_cons_succ] at ha hb
    rw [List.map_cons, List.map_cons, List.map_nil, ha, hb]
    rfl

/-- From one end of the words to the other in steps of a quarter of the way: there are four terms,
but three steps are no word, and where plain results are checked there is no list. -/
theorem range_across_words :
    (∀ k : Nat, k < 4 ↔
      BeforeStop Int64.maxValue.toInt (2 ^ 62) (Int64.minValue.toInt + k * 2 ^ 62)) ∧
    Word64.fits (3 * 2 ^ 62) = false ∧
    Word64.progressionWith Word64.ofInt? Int64.minValue 4611686018427387904 4 = none := by
  refine ⟨fun k => ?_, by decide, by decide⟩
  have hmin : Int64.minValue.toInt = -9223372036854775808 := rfl
  have hmax : Int64.maxValue.toInt = 9223372036854775807 := rfl
  rw [BeforeStop, if_pos (by decide), hmin, hmax]
  omega

end Scripting
