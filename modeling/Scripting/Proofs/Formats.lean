/-
# Formats and their padding

A format is written in parts (`SpecText`), each of which may be left out. Read from the left they
come out again, although a fill can be any character and a zero can be a flag or a digit of the
width: it is a flag where no alignment is given, and else a digit (`SpecText.Read`). What is read
as a format was written so (`exists_specText`), and what was written so is read
(`read?_text`).

The width only pads. The value in the same format without its width is the body, and the result
is the body with as many fill characters as are missing, where the alignment puts them
(`formats_pad_exactly`).
-/
import Scripting.Format

namespace Scripting

variable {c : Char} {rest : List Char} {h : Heap} {v : Value} {body : String}

/-! ### How formats are written -/

/-- A format as it is written, `[[fill]align][+][0][width][.precision][type]`. -/
structure SpecText where
  fill : Option Char
  align : Option Char
  plus : Bool
  zero : Bool
  width : List Char
  precision : Option (List Char)
  kind : Option Char
  fill_align : fill.isSome = true → align.isSome = true
  align_mem : ∀ c ∈ align, c ∈ ['<', '>', '^']
  width_digits : ∀ c ∈ width, c.isDigit = true
  precision_digits : ∀ digits ∈ precision, digits ≠ [] ∧ ∀ c ∈ digits, c.isDigit = true
  kind_mem : ∀ c ∈ kind, c ∈ ['s', 'd', 'f', '%']

namespace SpecText

variable (d : SpecText)

def ending : List Char := d.precision.elim [] ('.' :: ·) ++ d.kind.toList

def behindAlign : List Char :=
  (if d.plus then ['+'] else []) ++ ((if d.zero then ['0'] else []) ++ (d.width ++ d.ending))

def text : List Char := d.fill.toList ++ (d.align.toList ++ d.behindAlign)

/-- The parts are the ones that reading from the left finds: a zero is a flag exactly where no
alignment is given. -/
structure Read : Prop where
  zero_align : d.zero = true → d.align = none
  width_zero : d.align = none → d.zero = false → d.width.head? ≠ some '0'

theorem Read.zero_eq_false {d : SpecText} (hd : d.Read) (h : d.align ≠ none) : d.zero = false := by
  cases hzero : d.zero with
  | false => rfl
  | true => exact absurd (hd.zero_align hzero) h

/-- The format without the digits of its width. -/
def withoutWidth : SpecText := { d with width := [], width_digits := by simp }

/-- The width; none at all asks for nothing. -/
def size : Nat := digitsValue d.width

def parts : FormatSpec where
  fill := if d.zero then '0' else d.fill.getD ' '
  align := if d.zero then some .sign else d.align.bind Alignment.ofChar?
  plus := d.plus
  width := d.size
  precision := d.precision.map digitsValue
  kind := d.kind

/-- No width and no precision is beyond the limit. -/
def Fits : Prop :=
  d.size ≤ FormatSpec.sizeLimit ∧ ∀ digits ∈ d.precision, digitsValue digits ≤ FormatSpec.sizeLimit

instance : Decidable d.Fits := inferInstanceAs (Decidable (_ ∧ _))

end SpecText

/-! ### Reading what is written -/

namespace FormatSpec

theorem ofChar?_eq_none_of_isDigit (h : c.isDigit = true) : Alignment.ofChar? c = none := by
  unfold Alignment.ofChar?
  split <;> first | rfl | exact absurd h (by decide)

theorem mem_of_ofChar? {a : Alignment} (h : Alignment.ofChar? c = some a) :
    c ∈ ['<', '>', '^'] := by
  unfold Alignment.ofChar? at h
  split at h <;> simp_all

theorem exists_ofChar? (h : c ∈ ['<', '>', '^']) : ∃ a, Alignment.ofChar? c = some a := by
  simp only [List.mem_cons, List.not_mem_nil, or_false] at h
  rcases h with rfl | rfl | rfl <;> exact ⟨_, rfl⟩

theorem readAlignment_of_none {text : List Char} (h : ∀ c ∈ text, Alignment.ofChar? c = none) :
    readAlignment text = (' ', none, text) := by
  match text with
  | [] => rfl
  | [c] => simp [readAlignment, h c]
  | c :: c' :: rest => simp [readAlignment, h c, h c']

theorem readAlignment_append {fill : Option Char} {mark : Char} {a : Alignment}
    (hmark : Alignment.ofChar? mark = some a) (hrest : ∀ c ∈ rest, Alignment.ofChar? c = none) :
    readAlignment (fill.toList ++ mark :: rest) = (fill.getD ' ', some a, rest) := by
  match fill, rest with
  | some c, _ => simp [readAlignment, hmark]
  | none, [] => simp [readAlignment, hmark]
  | none, c :: rest => simp [readAlignment, hmark, hrest c]

theorem readMark_append (mark : Char) {found : Bool} (h : found = false → rest.head? ≠ some mark) :
    readMark mark ((if found then [mark] else []) ++ rest) = (found, rest) := by
  cases found with
  | true => simp [readMark]
  | false =>
    match rest, h rfl with
    | [], _ => rfl
    | c :: rest, hne => simpa [readMark] using hne

theorem readSize_append {digits : List Char} (hdigits : ∀ c ∈ digits, c.isDigit = true)
    (hrest : ∀ c ∈ rest.head?, c.isDigit = false) :
    readSize (digits ++ rest) =
      if digitsValue digits ≤ sizeLimit then
        some (if digits = [] then none else some (digitsValue digits), rest)
      else none := by
  have hstop : rest.takeWhile Char.isDigit = [] ∧ rest.dropWhile Char.isDigit = rest := by
    cases rest with
    | nil => exact ⟨rfl, rfl⟩
    | cons c rest => simp [hrest c rfl]
  unfold readSize
  rw [List.takeWhile_append_of_pos hdigits, List.dropWhile_append_of_pos hdigits, hstop.1, hstop.2,
    List.append_nil]
  cases digits with
  | nil => simp [digitsValue]
  | cons c digits => simp

theorem readPrecision_append {precision : Option (List Char)}
    (hdigits : ∀ digits ∈ precision, digits ≠ [] ∧ ∀ c ∈ digits, c.isDigit = true)
    (hrest : ∀ c ∈ rest.head?, c.isDigit = false ∧ c ≠ '.') :
    readPrecision (precision.elim [] ('.' :: ·) ++ rest) =
      if ∀ digits ∈ precision, digitsValue digits ≤ sizeLimit then
        some (precision.map digitsValue, rest)
      else none := by
  cases precision with
  | none =>
    cases rest with
    | nil => simp [readPrecision]
    | cons c rest =>
      have hpoint := (hrest c rfl).2
      simp [readPrecision, hpoint]
  | some digits =>
    obtain ⟨hne, hall⟩ := hdigits digits rfl
    simp only [Option.elim_some, List.cons_append, readPrecision,
      readSize_append hall fun c hc => (hrest c hc).1]
    by_cases hfits : digitsValue digits ≤ sizeLimit <;> simp [hfits, hne]

end FormatSpec

namespace SpecText

open FormatSpec

variable {d : SpecText}

theorem kind_plain (h : c ∈ d.kind) :
    c.isDigit = false ∧ c ≠ '.' ∧ c ≠ '+' ∧ Alignment.ofChar? c = none := by
  have hmem := d.kind_mem c h
  simp only [List.mem_cons, List.not_mem_nil, or_false] at hmem
  rcases hmem with rfl | rfl | rfl | rfl <;> exact ⟨by decide, by decide, by decide, by decide⟩

theorem head?_ending (h : c ∈ d.ending.head?) : c.isDigit = false ∧ c ≠ '+' := by
  unfold ending at h
  cases hprecision : d.precision with
  | some digits =>
    obtain rfl : '.' = c := by simpa [hprecision] using h
    exact ⟨by decide, by decide⟩
  | none =>
    have hkind : c ∈ d.kind := by simpa [hprecision] using h
    exact ⟨(kind_plain hkind).1, (kind_plain hkind).2.2.1⟩

theorem mem_behindAlign (h : c ∈ d.behindAlign) :
    c = '+' ∨ c.isDigit = true ∨ c = '.' ∨ c ∈ d.kind := by
  unfold behindAlign ending at h
  simp only [List.mem_append] at h
  rcases h with hplus | hzero | hwidth | hprecision | hkind
  · cases hp : d.plus <;> simp [hp] at hplus
    exact .inl hplus
  · cases hz : d.zero <;> simp [hz] at hzero
    exact .inr (.inl (by rw [hzero]; decide))
  · exact .inr (.inl (d.width_digits c hwidth))
  · cases hp : d.precision with
    | none => simp [hp] at hprecision
    | some digits =>
      rw [hp, Option.elim_some] at hprecision
      rcases List.mem_cons.1 hprecision with rfl | hmem
      · exact .inr (.inr (.inl rfl))
      · exact .inr (.inl ((d.precision_digits digits hp).2 c hmem))
  · exact .inr (.inr (.inr (by simpa using hkind)))

theorem ofChar?_behindAlign (h : c ∈ d.behindAlign) : Alignment.ofChar? c = none := by
  rcases mem_behindAlign h with rfl | hdigit | rfl | hkind
  · rfl
  · exact ofChar?_eq_none_of_isDigit hdigit
  · rfl
  · exact (kind_plain hkind).2.2.2

theorem fill_eq_none (h : d.align = none) : d.fill = none := by
  cases hfill : d.fill with
  | none => rfl
  | some c => simpa [hfill, h] using d.fill_align

theorem readAlignment_text :
    readAlignment d.text = (d.fill.getD ' ', d.align.bind Alignment.ofChar?, d.behindAlign) := by
  unfold text
  have hplain : ∀ c ∈ d.behindAlign, Alignment.ofChar? c = none := fun c => ofChar?_behindAlign
  cases halign : d.align with
  | none =>
    rw [fill_eq_none halign]
    exact readAlignment_of_none hplain
  | some mark =>
    obtain ⟨a, ha⟩ := exists_ofChar? (d.align_mem mark halign)
    rw [Option.bind_some, ha]
    exact readAlignment_append ha hplain

theorem readMark_behindAlign :
    readMark '+' d.behindAlign =
      (d.plus, (if d.zero then ['0'] else []) ++ (d.width ++ d.ending)) := by
  refine readMark_append '+' fun _ hhead => ?_
  have hmem := List.mem_of_head? hhead
  cases hz : d.zero with
  | true => simp [hz] at hhead
  | false =>
    cases hw : d.width with
    | cons c rest =>
      obtain rfl : c = '+' := by simpa [hz, hw] using hhead
      exact absurd (d.width_digits '+' (by simp [hw])) (by decide)
    | nil =>
      have hending : d.ending.head? = some '+' := by simpa [hz, hw] using hhead
      exact (head?_ending hending).2 rfl

theorem readZero_text (hd : d.Read) :
    (if (d.align.bind Alignment.ofChar?).isNone = true then
        readMark '0' ((if d.zero then ['0'] else []) ++ (d.width ++ d.ending))
      else (false, (if d.zero then ['0'] else []) ++ (d.width ++ d.ending))) =
      (d.zero, d.width ++ d.ending) := by
  cases halign : d.align with
  | some mark =>
    obtain ⟨a, ha⟩ := exists_ofChar? (d.align_mem mark halign)
    simp [ha, hd.zero_eq_false (by simp [halign])]
  | none =>
    rw [Option.bind_none, Option.isNone_none, if_pos rfl]
    refine readMark_append '0' fun hz hhead => ?_
    cases hw : d.width with
    | cons c rest => exact hd.width_zero halign hz (by simpa [hw] using hhead)
    | nil =>
      have hending : d.ending.head? = some '0' := by simpa [hw] using hhead
      exact absurd (head?_ending hending).1 (by decide)

/-- A written format is read as its parts, unless a number in it is beyond the limit. -/
theorem read?_text (hd : d.Read) : read? d.text = if d.Fits then some d.parts else none := by
  unfold read?
  rw [readAlignment_text]
  dsimp only
  rw [readMark_behindAlign]
  dsimp only
  rw [readZero_text hd]
  dsimp only
  have hread : readSize (d.width ++ d.ending) =
      if d.size ≤ sizeLimit then some (if d.width = [] then none else some d.size, d.ending)
      else none := readSize_append d.width_digits fun c hc => (head?_ending hc).1
  rw [hread]
  by_cases hwidth : d.size ≤ sizeLimit
  · have hkind : ∀ c ∈ d.kind.toList.head?, c.isDigit = false ∧ c ≠ '.' := by
      intro c hc
      have hplain := kind_plain (d := d) (c := c) (by simpa using hc)
      exact ⟨hplain.1, hplain.2.1⟩
    rw [if_pos hwidth]
    dsimp only
    rw [ending, readPrecision_append d.precision_digits hkind]
    by_cases hprecision : ∀ digits ∈ d.precision, digitsValue digits ≤ sizeLimit
    · have hsize : (if d.width = [] then none else some d.size).getD 0 = d.size := by
        split
        next hnil => rw [size, hnil]; rfl
        · rfl
      have hfits : d.Fits := ⟨hwidth, hprecision⟩
      rw [if_pos hprecision, if_pos hfits]
      dsimp only
      cases hk : d.kind <;> simp [parts, hsize, hk]
    · rw [if_neg hprecision, if_neg fun h : d.Fits => hprecision h.2]
  · rw [if_neg hwidth, if_neg fun h : d.Fits => hwidth h.1]

end SpecText

/-! ### Writing what is read -/

namespace FormatSpec

theorem exists_of_readAlignment (text : List Char) :
    ∃ (fill align : Option Char) (rest : List Char),
    readAlignment text = (fill.getD ' ', align.bind Alignment.ofChar?, rest) ∧
    text = fill.toList ++ (align.toList ++ rest) ∧ (fill.isSome = true → align.isSome = true) ∧
    ∀ c ∈ align, c ∈ ['<', '>', '^'] := by
  unfold readAlignment
  split
  next fill mark rest =>
    split
    next a ha => exact ⟨some fill, some mark, rest, by simp [ha], rfl, by simp, by
      simpa using mem_of_ofChar? ha⟩
    · split
      next a ha => exact ⟨none, some fill, mark :: rest, by simp [ha], rfl, by simp, by
        simpa using mem_of_ofChar? ha⟩
      · exact ⟨none, none, fill :: mark :: rest, by simp, rfl, by simp, by simp⟩
  next mark =>
    split
    next a ha => exact ⟨none, some mark, [], by simp [ha], rfl, by simp, by
      simpa using mem_of_ofChar? ha⟩
    · exact ⟨none, none, [mark], by simp, rfl, by simp, by simp⟩
  · exact ⟨none, none, [], by simp, rfl, by simp, by simp⟩

theorem exists_of_readMark (mark : Char) (text : List Char) : ∃ found rest,
    readMark mark text = (found, rest) ∧ text = (if found then [mark] else []) ++ rest ∧
    (found = false → rest.head? ≠ some mark) := by
  match text with
  | [] => exact ⟨false, [], rfl, rfl, by simp⟩
  | c :: rest =>
    by_cases hc : c = mark
    · exact ⟨true, rest, by simp [readMark, hc], by simp [hc], by simp⟩
    · exact ⟨false, c :: rest, by simp [readMark, hc], rfl, by simpa using hc⟩

theorem exists_of_readSize {text : List Char} {n : Option Nat}
    (h : readSize text = some (n, rest)) : ∃ digits, text = digits ++ rest ∧
    (∀ c ∈ digits, c.isDigit = true) ∧ (digits = [] → n = none) := by
  have hdigits : ∀ c ∈ text.takeWhile Char.isDigit, c.isDigit = true :=
    List.all_eq_true.1 List.all_takeWhile
  unfold readSize at h
  dsimp only at h
  split at h
  · cases h
    exact ⟨[], rfl, by simp, fun _ => rfl⟩
  next hne =>
    split at h
    · cases h
      exact ⟨_, (List.takeWhile_append_dropWhile).symm, hdigits, fun hnil => by simp [hnil] at hne⟩
    · cases h

theorem exists_of_readPrecision {text : List Char} {n : Option Nat}
    (h : readPrecision text = some (n, rest)) : ∃ precision : Option (List Char),
    text = precision.elim [] ('.' :: ·) ++ rest ∧
    ∀ digits ∈ precision, digits ≠ [] ∧ ∀ c ∈ digits, c.isDigit = true := by
  unfold readPrecision at h
  split at h
  next behind =>
    cases hsize : readSize behind with
    | none => rw [hsize] at h; cases h
    | some found =>
      obtain ⟨size, left⟩ := found
      rw [hsize] at h
      cases size with
      | none => cases h
      | some m =>
        cases h
        obtain ⟨digits, rfl, hall, hnone⟩ := exists_of_readSize hsize
        refine ⟨some digits, rfl, fun ds hds => ?_⟩
        obtain rfl : digits = ds := Option.some.inj hds
        exact ⟨fun hnil => (by cases hnone hnil), hall⟩
  · cases h
    exact ⟨none, rfl, by simp⟩

/-- What is read as a format is written as one, in the parts that were found. -/
theorem exists_specText {text : List Char} {spec : FormatSpec} (h : read? text = some spec)
    (hkind : ∀ c ∈ spec.kind, c ∈ ['s', 'd', 'f', '%']) :
    ∃ d : SpecText, d.Read ∧ d.text = text := by
  obtain ⟨fill, align, rest, halignment, rfl, hfill, hmark⟩ := exists_of_readAlignment text
  obtain ⟨plus, rest, hplus, rfl, -⟩ := exists_of_readMark '+' rest
  unfold read? at h
  rw [halignment] at h
  dsimp only at h
  rw [hplus] at h
  dsimp only at h
  -- Where an alignment is given, the zero is left to the width.
  obtain ⟨zero, behind, hzero, rfl, hflag, hdigit⟩ : ∃ zero behind,
      (if (align.bind Alignment.ofChar?).isNone = true then readMark '0' rest else (false, rest)) =
        (zero, behind) ∧ rest = (if zero then ['0'] else []) ++ behind ∧
      (zero = true → align = none) ∧ (align = none → zero = false → behind.head? ≠ some '0') := by
    cases align with
    | none =>
      obtain ⟨zero, behind, hread, hrest, hhead⟩ := exists_of_readMark '0' rest
      exact ⟨zero, behind, by simpa using hread, hrest, fun _ => rfl, fun _ => hhead⟩
    | some mark =>
      obtain ⟨a, ha⟩ := exists_ofChar? (hmark mark rfl)
      exact ⟨false, rest, by simp [ha], rfl, by simp, by simp⟩
  rw [hzero] at h
  dsimp only at h
  split at h
  · cases h
  next width behind' hwidth =>
    obtain ⟨digits, rfl, hdigits, -⟩ := exists_of_readSize hwidth
    split at h
    · cases h
    next precision last hprecision =>
      obtain ⟨places, rfl, hplaces⟩ := exists_of_readPrecision hprecision
      obtain ⟨kind, rfl, hkinds⟩ : ∃ kind : Option Char, last = kind.toList ∧
          ∀ c ∈ kind, c ∈ ['s', 'd', 'f', '%'] := by
        split at h
        · exact ⟨none, rfl, by simp⟩
        next k =>
          cases h
          exact ⟨some k, rfl, hkind⟩
        · cases h
      refine ⟨⟨fill, align, plus, zero, digits, places, kind, hfill, hmark, hdigits, hplaces,
        hkinds⟩, ⟨hflag, fun hnone hfalse hhead => hdigit hnone hfalse ?_⟩, rfl⟩
      rw [List.head?_append, hhead]
      rfl

end FormatSpec

/-! ### Bodies and padding -/

theorem length_padded (fill : Char) (align : Alignment) (width : Nat) (body : List Char) :
    (padded fill align width body).length = max width body.length := by
  unfold padded
  cases align with
  | left => simp; omega
  | right => simp; omega
  | center => simp; omega
  | sign => dsimp only; split <;> simp <;> omega

theorem padded_zero (fill : Char) (align : Alignment) (body : List Char) :
    padded fill align 0 body = body := by
  unfold padded
  cases align with
  | left => simp
  | right => simp
  | center => simp
  | sign => dsimp only; split <;> simp

theorem padded_sign (fill : Char) (width : Nat) (body : List Char) :
    ∃ sign digits, body = sign ++ digits ∧ sign ∈ [['-'], ['+'], []] ∧
      (sign = [] → digits.head? ≠ some '-' ∧ digits.head? ≠ some '+') ∧
      padded fill .sign width body =
        sign ++ (List.replicate (width - body.length) fill ++ digits) := by
  unfold padded
  dsimp only
  split
  next rest => exact ⟨['-'], rest, rfl, by simp, by simp, rfl⟩
  next rest => exact ⟨['+'], rest, rfl, by simp, by simp, rfl⟩
  next hminus hplus =>
    refine ⟨[], body, rfl, by simp, fun _ => ⟨fun h => ?_, fun h => ?_⟩, rfl⟩
    · obtain ⟨rest, hrest⟩ := List.head?_eq_some_iff.1 h
      exact hminus rest hrest
    · obtain ⟨rest, hrest⟩ := List.head?_eq_some_iff.1 h
      exact hplus rest hrest

namespace Heap

theorem kind_mem_of_formatBody {spec : FormatSpec} (hbody : h.formatBody spec v = some body) :
    ∀ c ∈ spec.kind, c ∈ ['s', 'd', 'f', '%'] := by
  have hnumber : ∀ {x : Float}, formatNumber spec x = some body →
      ∀ c ∈ spec.kind, c ∈ ['s', 'd', 'f', '%'] := by
    intro x hx c hc
    unfold formatNumber at hx
    dsimp only at hx
    rw [hc] at hx
    split at hx <;> simp_all
  intro c hc
  unfold formatBody at hbody
  split at hbody
  · split at hbody <;> simp_all
  · split at hbody
    · simp_all
    · exact hnumber hbody c hc
  · split at hbody
    · simp_all
    · exact hnumber hbody c hc
  · split at hbody <;> simp_all

/-- The empty format is no exception: it has no parts, and a value in it is the value's text. -/
theorem format_eq (h : Heap) (v : Value) (spec : String) :
    h.format v spec =
      match FormatSpec.read? spec.toList with
      | none => .error (formatFault spec v)
      | some parts =>
        match h.formatBody parts v with
        | none => .error (formatFault spec v)
        | some body =>
          .ok (String.ofList (padded parts.fill
            (parts.align.getD (if v.isNumber then .right else .left)) parts.width
            body.toList)) := by
  unfold format
  split
  next hempty =>
    obtain rfl : spec = "" := by simpa using hempty
    have hread : FormatSpec.read? "".toList = some ⟨' ', none, false, 0, none, none⟩ := rfl
    have hbody : h.formatBody ⟨' ', none, false, 0, none, none⟩ v = some (h.display v) := by
      cases v <;> rfl
    rw [hread]
    dsimp only
    rw [hbody]
    dsimp only
    rw [padded_zero, String.ofList_toList]
  · rfl

end Heap

namespace SpecText

/-- The result is the body with the characters that are missing added where the format puts
them. -/
structure Pads (d : SpecText) (v : Value) (body result : List Char) : Prop where
  zero : d.zero = true → ∃ sign digits, body = sign ++ digits ∧ sign ∈ [['-'], ['+'], []] ∧
    (sign = [] → digits.head? ≠ some '-' ∧ digits.head? ≠ some '+') ∧
    result = sign ++ (List.replicate (d.size - body.length) '0' ++ digits)
  left : d.align = some '<' →
    result = body ++ List.replicate (d.size - body.length) (d.fill.getD ' ')
  right : d.align = some '>' →
    result = List.replicate (d.size - body.length) (d.fill.getD ' ') ++ body
  center : d.align = some '^' →
    result = List.replicate ((d.size - body.length) / 2) (d.fill.getD ' ') ++ body ++
      List.replicate (d.size - body.length - (d.size - body.length) / 2) (d.fill.getD ' ')
  unaligned : d.align = none → d.zero = false →
    result = if v.isNumber then List.replicate (d.size - body.length) ' ' ++ body
      else body ++ List.replicate (d.size - body.length) ' '

variable {d : SpecText}

theorem pads_padded (hd : d.Read) (v : Value) (body : List Char) :
    d.Pads v body (padded d.parts.fill
      (d.parts.align.getD (if v.isNumber then .right else .left)) d.size body) where
  zero hzero := by
    obtain ⟨sign, digits, hbody, hsign, hplain, hpadded⟩ := padded_sign '0' d.size body
    exact ⟨sign, digits, hbody, hsign, hplain, by simpa [parts, hzero] using hpadded⟩
  left halign := by
    have hzero := hd.zero_eq_false (by simp [halign])
    simp [parts, hzero, halign, Alignment.ofChar?, padded]
  right halign := by
    have hzero := hd.zero_eq_false (by simp [halign])
    simp [parts, hzero, halign, Alignment.ofChar?, padded]
  center halign := by
    have hzero := hd.zero_eq_false (by simp [halign])
    simp [parts, hzero, halign, Alignment.ofChar?, padded]
  unaligned halign hzero := by
    cases hv : v.isNumber <;> simp [parts, hzero, halign, fill_eq_none halign, padded]

theorem read_withoutWidth (hd : d.Read) : d.withoutWidth.Read where
  zero_align := hd.zero_align
  width_zero _ _ := by simp [withoutWidth]

theorem formatBody_withoutWidth (h : Heap) (v : Value) :
    h.formatBody d.withoutWidth.parts v = h.formatBody d.parts v := by
  cases v <;> rfl

/-- A value in a written format: the body, padded to the width. -/
theorem format_text (hd : d.Read) (hfits : d.Fits) (hbody : h.formatBody d.parts v = some body) :
    h.format v (String.ofList d.text) =
      .ok (String.ofList (padded d.parts.fill
        (d.parts.align.getD (if v.isNumber then .right else .left)) d.size body.toList)) := by
  rw [Heap.format_eq, String.toList_ofList, read?_text hd, if_pos hfits]
  dsimp only
  rw [hbody]
  rfl

theorem format_withoutWidth (hd : d.Read) (hfits : d.Fits)
    (hbody : h.formatBody d.parts v = some body) :
    h.format v (String.ofList d.withoutWidth.text) = .ok body := by
  have hbare : h.formatBody d.withoutWidth.parts v = some body :=
    (formatBody_withoutWidth h v).trans hbody
  have hsize : d.withoutWidth.size = 0 := rfl
  rw [format_text (read_withoutWidth hd) ⟨by simp [hsize], hfits.2⟩ hbare, hsize, padded_zero,
    String.ofList_toList]

theorem mem_of_text_eq_singleton (d : SpecText) (h : d.text = [c]) :
    c ∈ d.align ∨ c ∈ d.behindAlign := by
  unfold text at h
  cases halign : d.align with
  | none =>
    rw [fill_eq_none halign, halign] at h
    exact .inr (by simpa using (congrArg (c ∈ ·) h).mpr (by simp))
  | some mark =>
    rw [halign] at h
    cases hfill : d.fill with
    | none =>
      rw [hfill] at h
      exact .inl (by simpa using congrArg List.head? h)
    | some fill => simp [hfill] at h

end SpecText

/-- **Padding is exact.** A format that a value can be written in is one of the grammar, and in
whichever way it is written in parts, the value in it is the value in the same format without the
width, with the characters added that are missing up to the width. No other text is a format. -/
theorem formats_pad_exactly (h : Heap) (v : Value) (spec : String) :
    (∀ result, h.format v spec = .ok result →
      (∃ d : SpecText, d.Read ∧ d.text = spec.toList) ∧
      ∀ d : SpecText, d.Read → d.text = spec.toList →
        ∃ body, h.format v (String.ofList d.withoutWidth.text) = .ok body ∧
          result.length = max d.size body.length ∧ d.Pads v body.toList result.toList) ∧
    ((∀ d : SpecText, d.text ≠ spec.toList) →
      ∃ f, h.format v spec = .error f ∧ f.kind = .argument) := by
  constructor
  · intro result hresult
    have hformat := hresult
    rw [Heap.format_eq] at hresult
    cases hread : FormatSpec.read? spec.toList with
    | none => rw [hread] at hresult; cases hresult
    | some parts =>
      rw [hread] at hresult
      dsimp only at hresult
      cases hbody : h.formatBody parts v with
      | none => rw [hbody] at hresult; cases hresult
      | some body =>
        refine ⟨FormatSpec.exists_specText hread (Heap.kind_mem_of_formatBody hbody), ?_⟩
        intro d hd htext
        rw [← htext, SpecText.read?_text hd] at hread
        by_cases hfits : d.Fits
        · obtain rfl : d.parts = parts := by simpa [hfits] using hread
          have hspec : spec = String.ofList d.text := by rw [htext, String.ofList_toList]
          rw [hspec, SpecText.format_text hd hfits hbody] at hformat
          obtain rfl := Except.ok.inj hformat
          refine ⟨body, SpecText.format_withoutWidth hd hfits hbody, ?_, ?_⟩
          · rw [String.length_ofList, length_padded, String.length_toList]
          · rw [String.toList_ofList]
            exact SpecText.pads_padded hd v body.toList
        · simp [hfits] at hread
  intro houtside
  refine ⟨formatFault spec v, ?_, rfl⟩
  rw [Heap.format_eq]
  cases hread : FormatSpec.read? spec.toList with
  | none => rfl
  | some parts =>
    cases hbody : h.formatBody parts v with
    | none => simp [hbody]
    | some body =>
      obtain ⟨d, -, htext⟩ :=
        FormatSpec.exists_specText hread (Heap.kind_mem_of_formatBody hbody)
      exact absurd htext (houtside d)

/-- Zeros behind a minus, and a text that is no format. -/
theorem formats_pad_exactly_behind_sign :
    Heap.empty.format (.int (-42)) "07" = .ok "-000042" ∧
    (∃ d : SpecText, d.Read ∧ d.text = "07".toList ∧
      ∃ body, Heap.empty.format (.int (-42)) (String.ofList d.withoutWidth.text) = .ok body ∧
        "-000042".length = max d.size body.length ∧
        d.Pads (.int (-42)) body.toList "-000042".toList) ∧
    (∀ d : SpecText, d.text ≠ "x".toList) ∧
    ∃ f, Heap.empty.format (.int (-42)) "x" = .error f ∧ f.kind = .argument := by
  have hformat : Heap.empty.format (.int (-42)) "07" = .ok "-000042" := rfl
  let d : SpecText := ⟨none, none, false, true, ['7'], none, none, by simp, by simp, by simp,
    by simp, by simp⟩
  have hd : d.Read := ⟨fun _ => rfl, by decide⟩
  have houtside : ∀ d : SpecText, d.text ≠ "x".toList := by
    intro d htext
    rcases d.mem_of_text_eq_singleton htext with h | h
    · exact absurd (d.align_mem 'x' h) (by decide)
    rcases SpecText.mem_behindAlign h with h | h | h | h
    · cases h
    · cases h
    · cases h
    · exact absurd (d.kind_mem 'x' h) (by decide)
  exact ⟨hformat, ⟨d, hd, rfl, ((formats_pad_exactly _ _ _).1 _ hformat).2 d hd rfl⟩, houtside,
    (formats_pad_exactly _ _ _).2 houtside⟩

end Scripting
