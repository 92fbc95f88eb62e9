/-
# Finding a text in a text

`find`, `in`, `len` and slices count places in a text in the same way, by characters. A part is
found where it begins first (`Text.FirstAt`), and it is found just if it is in the text.

The same place is found in the UTF-8 forms. No character's form begins within that of another
one, so the bytes of a part begin between two characters (`Text.append_of_bytes`), and where they
begin first is where the part does (`Text.FirstAt.bytes`).
-/
import Scripting.Builtin
import Scripting.Proofs.Number.Words
import Scripting.Proofs.Separators
import Scripting.Proofs.Slicing

namespace Scripting

namespace Text

/-! ### Places -/

/-- A part begins at a place of a text, and at none before it. -/
structure FirstAt (part text : List Char) (i : Nat) : Prop where
  begins : part <+: text.drop i
  inside : i ≤ text.length
  first : ∀ j < i, ¬ part <+: text.drop j

theorem positionIn?_cases (part : List Char) : ∀ text : List Char,
    (∃ i, positionIn? part text = some i ∧ FirstAt part text i) ∨
    positionIn? part text = none ∧ ¬ part <:+: text
  | [] => by
    cases part with
    | nil => exact .inl ⟨0, rfl, List.nil_prefix, Nat.le_refl 0, nofun⟩
    | cons c part => exact .inr ⟨rfl, by simp⟩
  | c :: text => by
    rw [positionIn?]
    split
    next hpart =>
      exact .inl ⟨0, rfl, List.isPrefixOf_iff_prefix.1 hpart, Nat.zero_le _, nofun⟩
    next hpart =>
      have hnot : ¬ part <+: c :: text := fun h => hpart (List.isPrefixOf_iff_prefix.2 h)
      rcases positionIn?_cases part text with ⟨i, hi, hfirst⟩ | ⟨hnone, hinfix⟩
      · refine .inl ⟨i + 1, by rw [hi]; rfl, hfirst.begins, Nat.succ_le_succ hfirst.inside, ?_⟩
        intro j hj
        cases j with
        | zero => exact hnot
        | succ j => exact hfirst.first j (Nat.lt_of_succ_lt_succ hj)
      · exact .inr ⟨by rw [hnone]; rfl, fun h => (List.infix_cons_iff.1 h).elim hnot hinfix⟩

/-! ### Bytes -/

section

open String

variable {text part : String}

theorem append_of_bytes (hpart : part ≠ "") {before after : ByteArray}
    (h : text.toByteArray = before ++ (part.toByteArray ++ after)) :
    ∃ front back, text = front ++ part ++ back ∧ front.utf8ByteSize = before.size := by
  -- the first byte of the part begins a character, and so it does in the text
  obtain ⟨hlt, hbyte⟩ : ∃ h, (part.getUTF8Byte 0 h).IsUTF8FirstByte :=
    (Pos.Raw.isValid_iff_isUTF8FirstByte.1 Pos.Raw.isValid_zero).resolve_left fun hend =>
      hpart (rawEndPos_eq_zero_iff.1 hend.symm)
  have hpos : 0 < part.toByteArray.size := hlt
  have hvalid : Pos.Raw.IsValid text ⟨before.size⟩ := by
    refine Pos.Raw.isValid_iff_isUTF8FirstByte.2 (.inr ⟨?_, ?_⟩)
    · change before.size < text.toByteArray.size
      rw [h, ByteArray.size_append, ByteArray.size_append]
      omega
    simp only [getUTF8Byte] at hbyte ⊢
    simp only [h]
    rw [ByteArray.getElem_append_right (Nat.le_refl _)]
    simp only [Nat.sub_self]
    rwa [ByteArray.getElem_append_left]
  obtain ⟨front, rest, rfl, hfront⟩ := Pos.Raw.isValid_iff_exists_append.1 hvalid
  have hsize : front.toByteArray.size = before.size := (congrArg Pos.Raw.byteIdx hfront).symm
  rw [toByteArray_append] at h
  obtain rfl := ByteArray.append_inj_left h hsize
  have hrest := (ByteArray.append_right_inj _).1 h
  rw [← utf8Encode_toList (b := rest), ← utf8Encode_toList (b := part)] at hrest
  obtain ⟨back, hback⟩ := List.isPrefix_of_utf8Encode_append_eq_utf8Encode _ hrest.symm
  refine ⟨front, ofList back, ?_, rfl⟩
  rw [String.append_assoc, ← toList_inj, toList_append, toList_append, toList_append,
    toList_ofList, hback]

theorem FirstAt.bytes {i : Nat} (h : FirstAt part.toList text.toList i) :
    ∃ front back, text = front ++ part ++ back ∧ front.length = i ∧
      ∀ before after, text.toByteArray = before ++ (part.toByteArray ++ after) →
        front.utf8ByteSize ≤ before.size := by
  obtain ⟨back, hback⟩ := h.begins
  have hfront : (text.toList.take i).length = i := List.length_take_of_le h.inside
  refine ⟨ofList (text.toList.take i), ofList back, ?_, by rwa [length_ofList], ?_⟩
  · rw [← toList_inj, toList_append, toList_append, toList_ofList, toList_ofList,
      List.append_assoc, hback, List.take_append_drop]
  intro before after hbytes
  by_cases hpart : part = ""
  · subst hpart
    obtain rfl : i = 0 := by
      by_contra hi
      exact h.first 0 (Nat.pos_of_ne_zero hi) List.nil_prefix
    exact Nat.zero_le _
  obtain ⟨front', back', rfl, hsize⟩ := append_of_bytes hpart hbytes
  rw [toList_append, toList_append, List.append_assoc] at *
  have hle : i ≤ front'.toList.length := by
    by_contra hlt
    refine h.first _ (Nat.lt_of_not_le hlt) ?_
    rw [List.drop_left]
    exact List.prefix_append _ _
  have hsum : front'.utf8ByteSize =
      (ofList (front'.toList.take i)).utf8ByteSize + (ofList (front'.toList.drop i)).utf8ByteSize := by
    rw [← utf8ByteSize_append, ← ofList_append, List.take_append_drop, ofList_toList]
  rw [List.take_append_of_le_length hle]
  omega

end

end Text

/-! ### Methods, operators and slices -/

/-- Whether a text shows another one at a place: `s[i:i + len(sub)] == sub`. -/
def sameAt (quiet : Bool) (call : Caller) (s sub : Value) (place : Int64) (line : Nat) :
    Run Value := do
  let size ← Builtin.len.run quiet call [sub] .empty
  let stop ← binary .add (.int place) size line
  let stop ← Run.ofExcept stop.asInt
  let shown ← slice s ⟨some place, some stop, none⟩
  binary .eq shown sub line

theorem run_len (quiet : Bool) (call : Caller) (s : String) (w : World) :
    Builtin.len.run quiet call [.str s] .empty w = .ok (.ofNat s.length) w := rfl

theorem cutAt_of_toInt {length j : Nat} {place : Int64} (hplace : place.toInt = j) :
    cutAt length place = min length j := by
  unfold cutAt clampedBound
  rw [hplace]
  simp only
  omega

theorem slice_window {s : String} {place stop : Int64} {j n : Nat} (hplace : place.toInt = j)
    (hstop : stop.toInt = (j + n : Nat)) (hs : s.length < 2 ^ 63) (hj : j ≤ s.length) (w : World) :
    slice (.str s) ⟨some place, some stop, none⟩ w = .ok (.ofChars ((s.toList.drop j).take n)) w := by
  rw [← String.length_toList] at hs hj
  have hpositions : slicePositions s.toList.length ⟨some place, some stop, none⟩ =
      .ok (List.range' (cutAt s.toList.length place)
        (cutAt s.toList.length stop - cutAt s.toList.length place)) :=
    slicePositions_plain hs rfl
  rw [slice_text hpositions, filterMap_range', cutAt_of_toInt hplace, cutAt_of_toInt hstop,
    Nat.min_eq_right hj]
  rcases Nat.le_total (j + n) s.toList.length with hle | hle
  · rw [Nat.min_eq_right hle, Nat.add_sub_cancel_left]
  · rw [Nat.min_eq_left hle, List.take_of_length_le (by simp),
      List.take_of_length_le (by rw [List.length_drop]; omega)]

section

variable (quiet : Bool) (call : Caller) {s sub : String} {place : Int64} {j : Nat} (line : Nat)
  (w : World)

theorem sameAt_eq (hplace : place.toInt = j) (hs : s.length < 2 ^ 63) (hj : j ≤ s.length)
    (hwords : j + sub.length < 2 ^ 63) : sameAt quiet call (.str s) (.str sub) place line w =
      .ok (.bool (sub.toList.isPrefixOf (s.toList.drop j))) w := by
  have hsize : (Int64.ofNat sub.length).toInt = sub.length := Int64.toInt_ofNat_of_lt (by omega)
  obtain ⟨stop, hstop⟩ := Word64.exists_word (n := (j + sub.length : Nat))
    (Word64.fits_iff.2 (by omega))
  have hadd : binary .add (.int place) (.ofNat sub.length) line w = .ok (.int stop) w := by
    have hword : Word64.add? place (Int64.ofNat sub.length) = some stop :=
      Word64.ofInt?_eq_some_iff.2 (by rw [hstop, hplace, hsize]; rfl)
    simp only [binary, Value.ofNat, operation?, intOperation?, hword]
    rfl
  have hsame : (String.ofList ((s.toList.drop j).take sub.length) == sub) =
      sub.toList.isPrefixOf (s.toList.drop j) := by
    rw [Bool.eq_iff_iff, beq_iff_eq, ← String.toList_inj, String.toList_ofList,
      List.isPrefixOf_iff_prefix, List.prefix_iff_eq_take, String.length_toList, eq_comm]
  simp only [sameAt, bind, Run.bind, run_len, hadd, Run.ofExcept, Value.asInt,
    slice_window hplace hstop hs hj]
  rw [← hsame]
  rfl

end

/-- `find` gives -1 just for a text that is not in the other one, and else the first place, counted
as `len` and slices count, where the other text shows it. The bytes of the text stand behind those
of so many characters, and nowhere before. Texts are shorter than 2^63. -/
theorem finding_counts_characters (s sub : String) (hs : s.length < 2 ^ 63) (quiet : Bool)
    (call : Caller) (line : Nat) (w : World) :
    ∃ find place, callMethod? (.str s) "find" [.str sub] .empty = some find ∧
      find w = .ok (.int place) w ∧
      (place = -1 ↔ binary .isIn (.str sub) (.str s) line w = .ok (.bool false) w) ∧
      (place = -1 → ∀ before after, s.toByteArray ≠ before ++ (sub.toByteArray ++ after)) ∧
      (place ≠ -1 → binary .isIn (.str sub) (.str s) line w = .ok (.bool true) w ∧
        (∃ length, Builtin.len.run quiet call [.str s] .empty w = .ok (.int length) w ∧
          0 ≤ place ∧ place ≤ length) ∧
        sameAt quiet call (.str s) (.str sub) place line w = .ok (.bool true) w ∧
        (∀ j, 0 ≤ j → j < place →
          sameAt quiet call (.str s) (.str sub) j line w = .ok (.bool false) w) ∧
        ∃ front back, s = front ++ sub ++ back ∧ place.toInt = front.length ∧
          ∀ before after, s.toByteArray = before ++ (sub.toByteArray ++ after) →
            front.utf8ByteSize ≤ before.size) := by
  have hcall : callMethod? (.str s) "find" [.str sub] .empty =
      some (TextMethod.find.run s [.str sub] .empty) :=
    TextMethod.callMethod?_eq rfl (fun _ => rfl) s
  have hin : binary .isIn (.str sub) (.str s) line w =
      .ok (.bool (Text.position? s sub).isSome) w := rfl
  rcases Text.positionIn?_cases sub.toList s.toList with ⟨i, hi, hfirst⟩ | ⟨hnone, hinfix⟩
  · have hi : Text.position? s sub = some i := hi
    rw [hi] at hin
    have hle : i ≤ s.length := String.length_toList ▸ hfirst.inside
    have hlength : (Int64.ofNat s.length).toInt = s.length := Int64.toInt_ofNat_of_lt hs
    have hplace : (Int64.ofNat i).toInt = i := Int64.toInt_ofNat_of_lt (by omega)
    have hne : Int64.ofNat i ≠ -1 := by
      intro h
      have hneg : ((-1 : Int64)).toInt = -1 := by decide
      rw [h, hneg] at hplace
      omega
    have hsub : i + sub.length ≤ s.length := by
      have := hfirst.begins.length_le
      rw [List.length_drop, String.length_toList, String.length_toList] at this
      omega
    obtain ⟨front, back, htext, hfront, hbytes⟩ := hfirst.bytes
    refine ⟨_, Int64.ofNat i, hcall, ?_, ?_, fun h => absurd h hne, fun _ => ⟨hin, ⟨_, rfl, ?_, ?_⟩,
      ?_, fun j hj hlt => ?_, front, back, htext, by rw [hplace, hfront], hbytes⟩⟩
    · simp only [TextMethod.run, List.headD_cons, Value.asStr, bind, Run.bind, Run.ofExcept, hi]
      rfl
    · rw [hin]
      simp [hne]
    · rw [Int64.le_iff_toInt_le, hplace]
      exact Int.natCast_nonneg i
    · rw [Int64.le_iff_toInt_le, hplace, hlength]
      exact Int.ofNat_le.2 hle
    · rw [sameAt_eq quiet call line w hplace hs hle (by omega),
        List.isPrefixOf_iff_prefix.2 hfirst.begins]
    rw [Int64.le_iff_toInt_le] at hj
    rw [Int64.lt_iff_toInt_lt, hplace] at hlt
    have hj : j.toInt = (j.toInt.toNat : Int) := (Int.toNat_of_nonneg hj).symm
    have hnot := hfirst.first j.toInt.toNat (by omega)
    rw [← List.isPrefixOf_iff_prefix, Bool.not_eq_true] at hnot
    rw [sameAt_eq quiet call line w hj hs (by omega) (by omega), hnot]
  have hnone : Text.position? s sub = none := hnone
  rw [hnone] at hin
  refine ⟨_, -1, hcall, ?_, ⟨fun _ => hin, fun _ => rfl⟩, fun _ before after hbytes => ?_,
    fun h => absurd rfl h⟩
  · simp only [TextMethod.run, List.headD_cons, Value.asStr, bind, Run.bind, Run.ofExcept, hnone]
    rfl
  by_cases hsub : sub = ""
  · subst hsub
    exact hinfix List.nil_infix
  · obtain ⟨front, back, rfl, -⟩ := Text.append_of_bytes hsub hbytes
    exact hinfix ⟨front.toList, back.toList, by simp⟩

/-- `éé` stands in `aéééb` twice, the second time one character but two bytes further on. -/
theorem finding_counts_characters_two_bytes :
    "aéééb".length < 2 ^ 63 ∧ ∀ (call : Caller) (w : World), ∃ find,
      callMethod? (.str "aéééb") "find" [.str "éé"] .empty = some find ∧
      find w = .ok (.int 1) w ∧
      sameAt true call (.str "aéééb") (.str "éé") 1 1 w = .ok (.bool true) w ∧
      sameAt true call (.str "aéééb") (.str "éé") 0 1 w = .ok (.bool false) w := by
  have hlength : "aéééb".length < 2 ^ 63 := by decide
  refine ⟨hlength, fun call w => ?_⟩
  obtain ⟨find, place, hfind, hplace, -, -, hshown⟩ :=
    finding_counts_characters "aéééb" "éé" hlength true call 1 w
  obtain rfl : place = 1 := by
    cases hfind
    cases hplace
    rfl
  obtain ⟨-, -, htrue, hfalse, -⟩ := hshown (by decide)
  exact ⟨find, hfind, hplace, htrue, hfalse 0 (by decide) (by decide)⟩

end Scripting
