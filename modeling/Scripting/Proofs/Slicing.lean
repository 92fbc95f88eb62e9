/-
# Slices

A slice picks exactly the positions that its bounds describe: the start and what follows it in
steps, as far as it lies before the stop. Start and stop are the given bounds, counted from the
end if they are negative, moved to the ends of the sequence if they lie beyond, and the ends
themselves if they are left out. No plain result on the way leaves the words, and where the next
place would be no word it would not lie before the stop either (`picksFrom_eq`,
`slicePositionsWith_eq`). A sequence has less than 2^63 items.

So a sequence cut in two at any place is the two parts put together again, and turning it round
twice gives it back.
-/
import Scripting.Operator
import Scripting.Proofs.Number.Words
import Scripting.Subscript

namespace Scripting

variable {length : Nat}

variable {bounds : SliceBounds}

/-! ### Where a slice starts and stops -/

/-- A bound, counted from the front and moved between two ends. -/
def clampedBound (length : Nat) (low high : Int) (bound : Int64) : Int :=
  let place := if bound.toInt < 0 then bound.toInt + length else bound.toInt
  max low (min high place)

/-- A start and those that follow it in steps. -/
def progression (start step : Int) (count : Nat) : List Int :=
  (List.range count).map fun (i : Nat) => start + i * step

namespace SliceBounds

/-- How far it is from one position to the next. -/
def stepSize (bounds : SliceBounds) : Int := (bounds.step.getD 1).toInt

/-- Whether the slice goes to the right. -/
def Forward (bounds : SliceBounds) : Prop := 0 < bounds.stepSize

instance (bounds : SliceBounds) : Decidable bounds.Forward := inferInstanceAs (Decidable (0 < _))

/-- The least place that a bound can be moved to. -/
def low (bounds : SliceBounds) : Int := if bounds.Forward then 0 else -1

/-- The greatest place that a bound can be moved to. -/
def high (bounds : SliceBounds) (length : Nat) : Int :=
  if bounds.Forward then length else (length : Int) - 1

/-- Where the slice of a sequence of some length starts. -/
def startIn (bounds : SliceBounds) (length : Nat) : Int :=
  bounds.start.elim (if bounds.Forward then 0 else (length : Int) - 1)
    (clampedBound length bounds.low (bounds.high length))

/-- Where the slice of a sequence of some length stops. -/
def stopIn (bounds : SliceBounds) (length : Nat) : Int :=
  bounds.stop.elim (if bounds.Forward then length else -1)
    (clampedBound length bounds.low (bounds.high length))

/-- Whether a place is in front of another in the direction of the slice. -/
def Before (bounds : SliceBounds) (place stop : Int) : Prop :=
  if bounds.Forward then place < stop else stop < place

/-- The place that the slice comes to after some steps. -/
def placeAt (bounds : SliceBounds) (length k : Nat) : Int :=
  bounds.startIn length + k * bounds.stepSize

/-- The places that the slice comes to before its stop. -/
def places (bounds : SliceBounds) (length : Nat) : List Nat :=
  (progression (bounds.startIn length) bounds.stepSize
    (stepCount (bounds.startIn length) (bounds.stopIn length) bounds.stepSize)).map Int.toNat

theorem clampedBound_mem (length : Nat) {low high : Int} (h : low ≤ high) (n : Int64) :
    low ≤ clampedBound length low high n ∧ clampedBound length low high n ≤ high := by
  unfold clampedBound
  exact ⟨le_max_left _ _, max_le h (min_le_left _ _)⟩

theorem low_le_high (bounds : SliceBounds) (length : Nat) : bounds.low ≤ bounds.high length := by
  unfold low high
  split <;> omega

theorem bound_mem (bounds : SliceBounds) (length : Nat) {default : Int} (bound : Option Int64)
    (hdefault : bounds.low ≤ default ∧ default ≤ bounds.high length) :
    bounds.low ≤ bound.elim default (clampedBound length bounds.low (bounds.high length)) ∧
      bound.elim default (clampedBound length bounds.low (bounds.high length)) ≤
        bounds.high length := by
  cases bound with
  | some n => exact clampedBound_mem length (low_le_high bounds length) n
  | none => exact hdefault

theorem startIn_mem (bounds : SliceBounds) (length : Nat) :
    bounds.low ≤ bounds.startIn length ∧ bounds.startIn length ≤ bounds.high length :=
  bounds.bound_mem length bounds.start (by unfold low high; split <;> omega)

theorem stopIn_mem (bounds : SliceBounds) (length : Nat) :
    bounds.low ≤ bounds.stopIn length ∧ bounds.stopIn length ≤ bounds.high length :=
  bounds.bound_mem length bounds.stop (by unfold low high; split <;> omega)

end SliceBounds

/-! ### The positions -/

/-- So many positions lie in front of the stop as can be stepped on. -/
theorem lt_stepCount {start stop step : Int} (hstep : step ≠ 0) (k : Nat) :
    k < stepCount start stop step ↔
      if 0 < step then start + k * step < stop else stop < start + k * step := by
  have hcount (far : Int) {size : Int} (hsize : 0 < size) :
      k < (if 0 < far then ((far - 1) / size + 1).toNat else 0) ↔ k * size < far := by
    split
    next hfar =>
      have hdiv : (k : Int) ≤ (far - 1) / size ↔ k * size ≤ far - 1 := Int.le_ediv_iff_mul_le hsize
      have hnonneg : 0 ≤ (far - 1) / size := Int.ediv_nonneg (by omega) (by omega)
      omega
    next hfar =>
      have : 0 ≤ (k : Int) * size := Int.mul_nonneg (by omega) (by omega)
      omega
  unfold stepCount
  split
  next hpos =>
    have h := hcount (stop - start) hpos
    simp only [Int.sub_pos] at h
    rw [h]
    omega
  next hneg =>
    have h := hcount (start - stop) (show 0 < -step by omega)
    simp only [Int.sub_pos] at h
    rw [h]
    have : (k : Int) * -step = -(k * step) := Int.mul_neg _ _
    omega

/-- A place before the stop is in the sequence: it lies between the two. -/
theorem placeAt_mem {k : Nat}
    (hk : bounds.Before (bounds.placeAt length k) (bounds.stopIn length)) :
    0 ≤ bounds.placeAt length k ∧ bounds.placeAt length k < length := by
  obtain ⟨hlow, hhigh⟩ := bounds.startIn_mem length
  obtain ⟨hlow', hhigh'⟩ := bounds.stopIn_mem length
  unfold SliceBounds.placeAt at *
  unfold SliceBounds.Before at hk
  unfold SliceBounds.low SliceBounds.high at *
  split at hk
  next hf =>
    rw [if_pos hf] at *
    have : 0 ≤ (k : Int) * bounds.stepSize := Int.mul_nonneg (by omega) (Int.le_of_lt hf)
    omega
  next hf =>
    rw [if_neg hf] at *
    have : (k : Int) * bounds.stepSize ≤ 0 :=
      Int.mul_nonpos_of_nonneg_of_nonpos (by omega) (Int.not_lt.1 hf)
    omega

/-! ### The loop -/

section

variable {start stop step : Int} (hstep : step ≠ 0)
include hstep

theorem stepCount_of_before (h : if 0 < step then start < stop else stop < start) :
    stepCount start stop step = stepCount (start + step) stop step + 1 := by
  have hfirst : 0 < stepCount start stop step := by
    rw [lt_stepCount hstep]
    simpa using h
  have hmore (k : Nat) :
      k + 1 < stepCount start stop step ↔ k < stepCount (start + step) stop step := by
    have hplace : start + (k + 1 : Nat) * step = start + step + k * step := by
      rw [Int.natCast_add, Int.add_mul]
      omega
    rw [lt_stepCount hstep, lt_stepCount hstep, hplace]
  have hlast := hmore (stepCount (start + step) stop step)
  have hall := hmore (stepCount start stop step - 1)
  omega

theorem stepCount_of_not_before (h : ¬ if 0 < step then start < stop else stop < start) :
    stepCount start stop step = 0 := by
  by_contra hne
  have hfirst := (lt_stepCount hstep 0).1 (Nat.pos_of_ne_zero hne)
  exact h (by simpa using hfirst)

end

theorem progression_succ (start step : Int) (count : Nat) :
    progression start step (count + 1) = start :: progression (start + step) step count := by
  unfold progression
  rw [List.range_succ_eq_map, List.map_cons, List.map_map]
  refine congrArg₂ _ (by simp) (List.map_congr_left fun k _ => ?_)
  simp only [Function.comp_apply, Nat.succ_eq_add_one, Int.natCast_add, Int.add_mul]
  omega

theorem toNat_toUInt64 {place : Int64} (h : 0 ≤ place.toInt) :
    place.toUInt64.toNat = place.toInt.toNat := by
  have hnat : place.toUInt64.toNat = place.toBitVec.toNat := rfl
  have hint : place.toInt = place.toBitVec.toInt := rfl
  rw [BitVec.toInt_eq_toNat_cond] at hint
  have := place.toBitVec.isLt
  split at hint <;> omega

/-- The loop picks the places before the stop. It ends early only where the next one is no word,
and no place behind the words is before the stop. -/
theorem picksFrom_eq {step stop place : Int64} (hstep : step ≠ 0) (hstop : -1 ≤ stop.toInt)
    (hplace : 0 < step.toInt → 0 ≤ place.toInt) (picked : Array Nat) :
    (picksFrom step stop picked place).toList = picked.toList ++ (progression place.toInt step.toInt
      (stepCount place.toInt stop.toInt step.toInt)).map Int.toNat := by
  have hstep' := Word64.toInt_ne_zero hstep
  have hbefore (place : Int64) : (0 < step ∧ place < stop ∨ step < 0 ∧ stop < place) ↔
      if 0 < step.toInt then place.toInt < stop.toInt else stop.toInt < place.toInt := by
    simp only [Int64.lt_iff_toInt_lt, Int64.toInt_zero]
    split <;> omega
  have hnonneg {place : Int64} (hplace : 0 < step.toInt → 0 ≤ place.toInt)
      (h : if 0 < step.toInt then place.toInt < stop.toInt else stop.toInt < place.toInt) :
      0 ≤ place.toInt := by
    split at h <;> omega
  fun_induction picksFrom step stop picked place with
  | case1 picked place h next hnext ih =>
    have hsum := Word64.ofInt?_eq_some_iff.1 hnext
    have hinside := hnonneg hplace ((hbefore place).1 h)
    rw [stepCount_of_before hstep' ((hbefore place).1 h), progression_succ, List.map_cons, ← hsum,
      ih (by omega), Array.toList_push, toNat_toUInt64 hinside, List.append_assoc,
      List.singleton_append]
  | case2 picked place h hnone =>
    have hinside := hnonneg hplace ((hbefore place).1 h)
    have hlast : stepCount (place.toInt + step.toInt) stop.toInt step.toInt = 0 := by
      have hword := Word64.fits_iff.1 (Word64.fits_toInt stop)
      have hleaves := Word64.ofInt?_eq_none_iff.1 hnone
      rw [Word64.fits_iff] at hleaves
      refine stepCount_of_not_before hstep' ?_
      have hbounds := place.toInt_lt
      split <;> omega
    rw [stepCount_of_before hstep' ((hbefore place).1 h), hlast, progression_succ, Array.toList_push,
      toNat_toUInt64 hinside]
    rfl
  | case3 picked place h =>
    rw [stepCount_of_not_before hstep' fun h' => h ((hbefore place).2 h')]
    simp [progression]

section Plain

variable {m : Type → Type} [Monad m] [LawfulMonad m] {plain : Int → m Int64}
  (hplain : Word64.Faithful plain)
include hplain

theorem boundWith_eq {size low high : Int64} (hsize : size.toInt = length)
    (hends : low.toInt ≤ high.toInt) (bound : Option Int64) (default : Int64) : ∃ place : Int64,
    bound.elim (pure default) (clampedWith plain size low high) = pure place ∧
      place.toInt = bound.elim default.toInt (clampedBound length low.toInt high.toInt) := by
  cases bound with
  | none => exact ⟨default, rfl, rfl⟩
  | some bound =>
    obtain ⟨place, hplace, hcounted⟩ : ∃ place : Int64,
        (if bound < 0 then plain (bound.toInt + size.toInt) else pure bound) = pure place ∧
        place.toInt = if bound.toInt < 0 then bound.toInt + length else bound.toInt := by
      by_cases hneg : bound < 0
      · have hneg' := Int64.lt_iff_toInt_lt.1 hneg
        rw [Int64.toInt_zero] at hneg'
        have hbound := bound.le_toInt
        have hlength := size.toInt_lt
        obtain ⟨place, hplace⟩ : ∃ place : Int64, place.toInt = bound.toInt + size.toInt :=
          Word64.exists_word (Word64.fits_iff.2 (by omega))
        exact ⟨place, by rw [if_pos hneg, ← hplace, hplain place], by rw [if_pos hneg', hplace, hsize]⟩
      · have hneg' := Int64.lt_iff_toInt_lt.not.1 hneg
        exact ⟨bound, if_neg hneg, (if_neg hneg').symm⟩
    refine ⟨if place < low then low else if high < place then high else place, ?_, ?_⟩
    · rw [Option.elim_some, clampedWith, hplace, pure_bind]
    simp only [Option.elim_some, clampedBound, ← hcounted, Int64.lt_iff_toInt_lt]
    split
    · omega
    split <;> omega

/-- The positions of a slice are the same whatever becomes of plain results that are no words:
there are none. -/
theorem slicePositionsWith_eq (hlength : length < 2 ^ 63) (h : bounds.stepSize ≠ 0) :
    slicePositionsWith plain length bounds = pure (.ok (bounds.places length)) := by
  have hstep : bounds.step.getD 1 ≠ 0 := fun hzero => h (by rw [SliceBounds.stepSize, hzero]; rfl)
  have hforward : 0 < bounds.step.getD 1 ↔ bounds.Forward := Int64.lt_iff_toInt_lt
  obtain ⟨size, hsize⟩ : ∃ size : Int64, size.toInt = length :=
    Word64.exists_word (Word64.fits_iff.2 (by omega))
  have hpicks {start stop : Int64} (hstart : start.toInt = bounds.startIn length)
      (hstop : stop.toInt = bounds.stopIn length) :
      (picksFrom (bounds.step.getD 1) stop #[] start).toList = bounds.places length := by
    have hlow := (bounds.startIn_mem length).1
    have hlow' := (bounds.stopIn_mem length).1
    unfold SliceBounds.low at hlow hlow'
    rw [SliceBounds.places]
    rw [← hstart, ← hstop] at *
    refine (picksFrom_eq hstep ?_ (fun hf => ?_) #[]).trans (List.nil_append _)
    · split at hlow' <;> omega
    · rwa [if_pos (show bounds.Forward from hf)] at hlow
  simp only [slicePositionsWith, if_neg hstep, ← hsize, Word64.ofInt?_toInt, Option.getD_some]
  by_cases hf : bounds.Forward
  · have hends : (0 : Int64).toInt ≤ size.toInt := by
      rw [hsize]
      exact Int.natCast_nonneg length
    obtain ⟨start, hstart, hstart'⟩ := boundWith_eq hplain hsize hends bounds.start 0
    obtain ⟨stop, hstop, hstop'⟩ := boundWith_eq hplain hsize hends bounds.stop size
    simp only [if_pos (hforward.2 hf), pure_bind, hstart, hstop]
    rw [hsize] at hstart' hstop'
    rw [hpicks]
    · simp only [hstart', SliceBounds.startIn, SliceBounds.low, SliceBounds.high, if_pos hf]
      rfl
    · simp only [hstop', SliceBounds.stopIn, SliceBounds.low, SliceBounds.high, if_pos hf]
      rfl
  obtain ⟨high, hhigh⟩ : ∃ high : Int64, high.toInt = size.toInt - 1 :=
    Word64.exists_word (Word64.fits_iff.2 (by omega))
  have hends : (-1 : Int64).toInt ≤ high.toInt := by
    rw [hhigh, hsize]
    exact Int.sub_le_sub_right (Int.natCast_nonneg length) 1
  obtain ⟨start, hstart, hstart'⟩ := boundWith_eq hplain hsize hends bounds.start high
  obtain ⟨stop, hstop, hstop'⟩ := boundWith_eq hplain hsize hends bounds.stop (-1)
  simp only [if_neg (hforward.not.2 hf), ← hhigh, hplain high, pure_bind, hstart, hstop]
  rw [hhigh, hsize] at hstart' hstop'
  rw [hpicks]
  · simp only [hstart', SliceBounds.startIn, SliceBounds.low, SliceBounds.high, if_neg hf]
    rfl
  · simp only [hstop', SliceBounds.stopIn, SliceBounds.low, SliceBounds.high, if_neg hf]
    rfl

end Plain

theorem slicePositions_of_stepSize (hlength : length < 2 ^ 63) (h : bounds.stepSize ≠ 0) :
    slicePositions length bounds = .ok (bounds.places length) :=
  slicePositionsWith_eq Word64.wrapped_faithful hlength h

/-- A slice without a step of zero takes the places before its stop, one after the other, and
all of them are in the sequence. -/
theorem slicePositions_spec (hlength : length < 2 ^ 63) (h : bounds.stepSize ≠ 0) :
    ∃ places : List Nat, slicePositions length bounds = .ok places ∧
      (∀ k, k < places.length ↔ bounds.Before (bounds.placeAt length k) (bounds.stopIn length)) ∧
      (∀ k (hk : k < places.length), (places[k] : Int) = bounds.placeAt length k) ∧
      ∀ place ∈ places, place < length := by
  refine ⟨_, slicePositions_of_stepSize hlength h, ?_⟩
  have hcount : (bounds.places length).length =
      stepCount (bounds.startIn length) (bounds.stopIn length) bounds.stepSize := by
    simp [SliceBounds.places, progression]
  have hbefore (k : Nat) : k < stepCount (bounds.startIn length) (bounds.stopIn length)
      bounds.stepSize ↔ bounds.Before (bounds.placeAt length k) (bounds.stopIn length) :=
    lt_stepCount h k
  refine ⟨fun k => by rw [hcount, hbefore], fun k hk => ?_, fun place hmem => ?_⟩
  · have := (placeAt_mem ((hbefore k).1 (hcount ▸ hk))).1
    simp only [SliceBounds.placeAt] at this
    simpa [SliceBounds.places, progression, SliceBounds.placeAt] using max_eq_left this
  simp only [SliceBounds.places, progression, List.map_map, List.mem_map, List.mem_range] at hmem
  obtain ⟨k, hk, rfl⟩ := hmem
  have := placeAt_mem ((hbefore k).1 hk)
  simp only [SliceBounds.placeAt] at this
  simp only [Function.comp_apply]
  omega

/-! ### Cutting and turning round -/

/-- How many items are in front of a cut. -/
def cutAt (length : Nat) (k : Int64) : Nat := (clampedBound length 0 length k).toNat

theorem stepCount_one (start stop : Int) : stepCount start stop 1 = (stop - start).toNat := by
  unfold stepCount
  rw [if_pos (by decide), Int.ediv_one]
  split <;> omega

theorem stepCount_neg_one (start stop : Int) : stepCount start stop (-1) = (start - stop).toNat := by
  unfold stepCount
  rw [if_neg (by decide), Int.neg_neg, Int.ediv_one]
  split <;> omega

theorem slicePositions_plain (hlength : length < 2 ^ 63) (h : bounds.step = none) :
    slicePositions length bounds = .ok (List.range' (bounds.startIn length).toNat
      ((bounds.stopIn length).toNat - (bounds.startIn length).toNat)) := by
  have hstep : bounds.stepSize = 1 := by rw [SliceBounds.stepSize, h]; rfl
  have hlow : bounds.low = 0 := by simp [SliceBounds.low, SliceBounds.Forward, hstep]
  obtain ⟨hstart, -⟩ := bounds.startIn_mem length
  obtain ⟨hstop, -⟩ := bounds.stopIn_mem length
  have hcount : (bounds.stopIn length - bounds.startIn length).toNat =
      (bounds.stopIn length).toNat - (bounds.startIn length).toNat := by omega
  rw [slicePositions_of_stepSize hlength (by omega), SliceBounds.places, hstep, stepCount_one,
    hcount, progression, List.map_map, List.range'_eq_map_range]
  refine congrArg Except.ok (List.map_congr_left fun i _ => ?_)
  simp only [Function.comp_apply]
  omega

theorem slicePositions_front (hlength : length < 2 ^ 63) (k : Int64) :
    slicePositions length ⟨none, some k, none⟩ = .ok (List.range' 0 (cutAt length k)) :=
  slicePositions_plain hlength rfl

theorem slicePositions_back (hlength : length < 2 ^ 63) (k : Int64) :
    slicePositions length ⟨some k, none, none⟩ =
      .ok (List.range' (cutAt length k) (length - cutAt length k)) :=
  slicePositions_plain hlength rfl

theorem slicePositions_turned (hlength : length < 2 ^ 63) :
    slicePositions length ⟨none, none, some (-1)⟩ = .ok (List.range' 0 length).reverse := by
  rw [slicePositions_of_stepSize hlength (by decide)]
  change Except.ok ((progression (length - 1) (-1) (stepCount (length - 1) (-1) (-1))).map _) = _
  have hcount : ((length : Int) - 1 - -1).toNat = length := by omega
  rw [stepCount_neg_one, hcount, progression, List.map_map, ← List.range_eq_range']
  refine congrArg Except.ok (List.ext_getElem (by simp) fun i hi hi' => ?_)
  simp only [List.length_map, List.length_range] at hi
  simp only [List.getElem_map, List.getElem_range, Function.comp_apply, List.getElem_reverse,
    List.length_range]
  omega

theorem filterMap_range' {α : Type} (xs : List α) : ∀ first count : Nat,
    (List.range' first count).filterMap (fun place => xs[place]?) = (xs.drop first).take count
  | _, 0 => by simp
  | first, count + 1 => by
    rw [List.range'_succ, List.filterMap_cons, filterMap_range' xs (first + 1) count]
    cases h : xs[first]? with
    | none =>
      have hlength := List.getElem?_eq_none_iff.1 h
      simp [List.drop_eq_nil_of_le hlength, List.drop_eq_nil_of_le (Nat.le_succ_of_le hlength)]
    | some x =>
      obtain ⟨hlt, rfl⟩ := List.getElem?_eq_some_iff.1 h
      rw [List.drop_eq_getElem_cons hlt, List.take_succ_cons]

theorem World.list_withList_part (w : World) (r : ListRef) {items : List Value}
    (h : items ⊆ (w.heap.list r).toList) :
    (w.withList items.toArray).heap.list r = w.heap.list r := by
  rw [list_withList]
  split
  next hr =>
    have hnone : w.heap.list r = #[] := by simp [hr, nextList, Heap.list]
    rw [hnone] at h ⊢
    rw [List.subset_nil.1 h]
  · rfl

theorem slice_list {w : World} {r : ListRef} {places : List Nat}
    (h : slicePositions (w.heap.list r).size bounds = .ok places) :
    slice (.list r) bounds w = .ok (.list w.nextList)
      (w.withList (places.filterMap fun place => (w.heap.list r).toList[place]?).toArray) := by
  unfold slice
  dsimp only [bind, Run.bind, Run.view, Run.ofExcept]
  rw [h]
  simp only [Array.getElem?_toList]
  rfl

theorem slice_text {w : World} {t : String} {places : List Nat}
    (h : slicePositions t.toList.length bounds = .ok places) :
    slice (.str t) bounds w = .ok (.ofChars (places.filterMap fun place => t.toList[place]?)) w := by
  unfold slice
  dsimp only [bind, Run.bind, Run.ofExcept]
  rw [List.size_toArray, h]
  simp only [List.getElem?_toArray]
  rfl

/-- A sequence cut in two, and its parts put together again. -/
def rejoined (xs : Value) (k : Int64) (line : Nat) : Run Value := do
  let front ← slice xs ⟨none, some k, none⟩
  let back ← slice xs ⟨some k, none, none⟩
  binary .add front back line

/-- A sequence from the end to the front. -/
def turned (xs : Value) : Run Value := slice xs ⟨none, none, some (-1)⟩

theorem World.nextList_ne_withList (w : World) (items : Array Value) :
    w.nextList ≠ (w.withList items).nextList := by
  intro h
  have := congrArg ListRef.id h
  simp [nextList, withList, Heap.newList] at this

section

variable {w : World} {r : ListRef} (hsize : (w.heap.list r).size < 2 ^ 63)
include hsize

theorem slice_list_front (k : Int64) :
    slice (.list r) ⟨none, some k, none⟩ w = .ok (.list w.nextList)
      (w.withList ((w.heap.list r).toList.take (cutAt (w.heap.list r).size k)).toArray) := by
  rw [slice_list (slicePositions_front hsize k), filterMap_range', List.drop_zero]

theorem slice_list_back (k : Int64) :
    slice (.list r) ⟨some k, none, none⟩ w = .ok (.list w.nextList)
      (w.withList ((w.heap.list r).toList.drop (cutAt (w.heap.list r).size k)).toArray) := by
  rw [slice_list (slicePositions_back hsize k), filterMap_range', List.take_of_length_le]
  simp

theorem turned_list :
    turned (.list r) w =
      .ok (.list w.nextList) (w.withList (w.heap.list r).toList.reverse.toArray) := by
  rw [turned, slice_list (slicePositions_turned hsize), List.filterMap_reverse, filterMap_range',
    List.drop_zero, List.take_of_length_le (by simp)]

theorem rejoined_list (k : Int64) (line : Nat) :
    ∃ s w', rejoined (.list r) k line w = .ok (.list s) w' ∧ w'.heap.list s = w.heap.list r := by
  set items := (w.heap.list r).toList with hitems
  set cut := cutAt (w.heap.list r).size k with hcut
  have hsame : (w.withList (items.take cut).toArray).heap.list r = w.heap.list r :=
    w.list_withList_part r (List.take_subset _ _)
  set w₁ := w.withList (items.take cut).toArray with hw₁
  set w₂ := w₁.withList (items.drop cut).toArray with hw₂
  have hback : slice (.list r) ⟨some k, none, none⟩ w₁ = .ok (.list w₁.nextList) w₂ := by
    rw [slice_list_back (hsame ▸ hsize), hsame]
  have hjoin : rejoined (.list r) k line w =
      .ok (.list w₂.nextList)
        (w₂.withList (w₂.heap.list w.nextList ++ w₂.heap.list w₁.nextList)) := by
    unfold rejoined
    dsimp only [bind, Run.bind]
    rw [slice_list_front hsize]
    dsimp only
    rw [← hw₁, hback]
    rfl
  refine ⟨_, _, hjoin, ?_⟩
  rw [World.list_withList, if_pos rfl, World.list_withList,
    if_neg (w.nextList_ne_withList _), World.list_withList, if_pos rfl, World.list_withList,
    if_pos rfl, List.append_toArray, List.take_append_drop]

end

theorem rejoined_text (w : World) {t : String} (ht : t.length < 2 ^ 63) (k : Int64) (line : Nat) :
    rejoined (.str t) k line w = .ok (.str t) w := by
  rw [← String.length_toList] at ht
  have hfront := slice_text (w := w) (slicePositions_front ht k)
  have hback := slice_text (w := w) (slicePositions_back ht k)
  rw [filterMap_range', List.drop_zero] at hfront
  rw [filterMap_range', List.take_of_length_le (by simp)] at hback
  have hjoin : rejoined (.str t) k line w =
      .ok (.str (String.ofList (t.toList.take (cutAt t.toList.length k)) ++
        String.ofList (t.toList.drop (cutAt t.toList.length k)))) w := by
    unfold rejoined
    dsimp only [bind, Run.bind]
    rw [hfront]
    dsimp only
    rw [hback]
    rfl
  rw [hjoin, ← String.ofList_append, List.take_append_drop, String.ofList_toList]

theorem turned_text (w : World) {t : String} (ht : t.length < 2 ^ 63) :
    turned (.str t) w = .ok (.ofChars t.toList.reverse) w := by
  rw [← String.length_toList] at ht
  rw [turned, slice_text (slicePositions_turned ht), List.filterMap_reverse, filterMap_range',
    List.drop_zero, List.take_of_length_le (by simp)]

theorem slicePositions_of_step_zero (h : bounds.step = some 0) (length : Nat) :
    slicePositions length bounds = .error (argumentFault "slice step cannot be zero") := by
  unfold slicePositions slicePositionsWith
  rw [h]
  rfl

/-- Whether slices can be taken of a value. -/
def Value.isSequence : Value → Bool
  | .list _ | .str _ => true
  | _ => false

theorem slice_of_step_zero {xs : Value} (hxs : xs.isSequence) (h : bounds.step = some 0)
    (w : World) : slice xs bounds w = .fault (argumentFault "slice step cannot be zero") w := by
  cases xs with
  | list r =>
    unfold slice
    dsimp only [bind, Run.bind, Run.view, Run.ofExcept]
    rw [slicePositions_of_step_zero h]
  | str t =>
    unfold slice
    dsimp only [bind, Run.bind, Run.ofExcept]
    rw [slicePositions_of_step_zero h]
  | _ => cases hxs

/-- Slices take the places from their start up to their stop, in their steps, and never fail
but for a step of zero. No plain result on the way leaves the words: where that would end the
computation, the positions are the same. A list or a text that is cut in two at any place is its
parts put together, and turned round twice it is what it was. Sequences have less than 2^63
items. -/
theorem slices_follow_bounds :
    (∀ (length : Nat) (bounds : SliceBounds), length < 2 ^ 63 → bounds.stepSize ≠ 0 →
      ∃ places : List Nat, slicePositions length bounds = .ok places ∧
        slicePositionsWith Word64.ofInt? length bounds = some (.ok places) ∧
        (∀ k, k < places.length ↔
          bounds.Before (bounds.placeAt length k) (bounds.stopIn length)) ∧
        (∀ k (hk : k < places.length), (places[k] : Int) = bounds.placeAt length k) ∧
        ∀ place ∈ places, place < length) ∧
    (∀ (length : Nat) (bounds : SliceBounds), bounds.step = some 0 →
      slicePositions length bounds = .error (argumentFault "slice step cannot be zero") ∧
      ∀ xs : Value, xs.isSequence → ∀ w,
        slice xs bounds w = .fault (argumentFault "slice step cannot be zero") w) ∧
    (∀ (w : World) (r : ListRef) (k : Int64) (line : Nat), (w.heap.list r).size < 2 ^ 63 →
      ∃ s w', rejoined (.list r) k line w = .ok (.list s) w' ∧ w'.heap.list s = w.heap.list r) ∧
    (∀ (w : World) (t : String) (k : Int64) (line : Nat), t.length < 2 ^ 63 →
      rejoined (.str t) k line w = .ok (.str t) w) ∧
    (∀ (w : World) (r : ListRef), (w.heap.list r).size < 2 ^ 63 → ∃ s w₁ t w₂,
      turned (.list r) w = .ok (.list s) w₁ ∧ w₁.heap.list s = (w.heap.list r).reverse ∧
      turned (.list s) w₁ = .ok (.list t) w₂ ∧ w₂.heap.list t = w.heap.list r) ∧
    (∀ (w : World) (t : String), t.length < 2 ^ 63 →
      turned (.str t) w = .ok (.ofChars t.toList.reverse) w ∧
      turned (.ofChars t.toList.reverse) w = .ok (.str t) w) := by
  refine ⟨fun length bounds hlength hstep => ?_, fun length bounds hstep => ?_,
    fun w r k line hr => rejoined_list hr k line, fun w t k line ht => rejoined_text w ht k line,
    fun w r hr => ?_, fun w t ht => ?_⟩
  · obtain ⟨places, hplaces, hspec⟩ := slicePositions_spec hlength hstep
    refine ⟨places, hplaces, ?_, hspec⟩
    rw [slicePositionsWith_eq Word64.ofInt?_faithful hlength hstep, ← hplaces,
      slicePositions_of_stepSize hlength hstep]
    rfl
  · exact ⟨slicePositions_of_step_zero hstep length, fun xs hxs => slice_of_step_zero hxs hstep⟩
  · have hturned : (w.withList (w.heap.list r).toList.reverse.toArray).heap.list w.nextList =
        (w.heap.list r).reverse := by
      rw [World.list_withList, if_pos rfl, ← List.reverse_toArray]
    refine ⟨_, _, _, _, turned_list hr, hturned, turned_list (by simpa [hturned] using hr), ?_⟩
    rw [World.list_withList, if_pos rfl, World.list_withList, if_pos rfl, List.reverse_reverse]
  have hback : (String.ofList t.toList.reverse).length < 2 ^ 63 := by
    rwa [String.length_ofList, List.length_reverse, String.length_toList]
  refine ⟨turned_text w ht, (turned_text w hback).trans ?_⟩
  simp [Value.ofChars]

/-- A slice from beyond the end to beyond the front in steps of two, one whose only step leaves
the words, and the text `abc` cut one before its end. -/
theorem slices_follow_bounds_far :
    let back : SliceBounds := ⟨some 10, some (-10), some (-2)⟩
    let wide : SliceBounds := ⟨some 1, none, some Int64.maxValue⟩
    slicePositions 5 back = .ok [4, 2, 0] ∧
    slicePositionsWith Word64.ofInt? 3 wide = some (.ok [1]) ∧ ¬ Word64.fits (wide.placeAt 3 1) ∧
    ∀ w line, rejoined (.str "abc") (-1) line w = .ok (.str "abc") w := by
  intro back wide
  obtain ⟨hslices, -, -, htexts, -, -⟩ := slices_follow_bounds
  obtain ⟨places, hplaces, hchecked, -⟩ := hslices 3 wide (by decide) (by decide)
  have hback : slicePositions 5 back = .ok [4, 2, 0] := by
    rw [slicePositions_of_stepSize (by decide) (by decide)]
    rfl
  have hwide : slicePositions 3 wide = .ok [1] := by
    rw [slicePositions_of_stepSize (by decide) (by decide)]
    exact congrArg Except.ok (by decide)
  refine ⟨hback, ?_, by decide, fun w line => htexts w "abc" (-1) line (by decide)⟩
  rw [hchecked, ← hplaces, hwide]

end Scripting
