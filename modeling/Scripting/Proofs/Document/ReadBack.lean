/-
# Standard texts are read

Every standard text of a document is read as the document (`readsAs_spells`). The proof follows the
document. Each part of a text is read the same whatever blanks stand in front of it and whatever
stands behind it, as long as that does not go on with a number (`ReadsAs`): a blank, a comma or a
bracket does not.
-/
import Scripting.Proofs.Document.Standard

namespace Scripting.Document

variable {spells : Document → List Char → Prop} {read : List Char → Reading Document}

variable {c : Char} {levels : Nat} {rest cs : List Char} {d : Document}

/-! ### Blanks -/

theorem skipBlanks_append {blanks : List Char} (h : Blank blanks) (cs : List Char) :
    skipBlanks (blanks ++ cs) = skipBlanks cs :=
  List.dropWhile_append_of_pos h

theorem skipBlanks_cons (h : isBlank c = false) (cs : List Char) : skipBlanks (c :: cs) = c :: cs :=
  List.dropWhile_cons_of_neg (by rw [← Bool.not_eq_true] at h; exact h)

/-! ### Texts -/

theorem hexValue?_hexDigit : ∀ n < 16, hexValue? (hexDigit n) = some n := by decide

theorem readEscape_number (h : c.toNat < 65536) (cs : List Char) :
    readEscape ('u' :: hexDigit (c.toNat / 4096) :: hexDigit (c.toNat / 256 % 16) ::
      hexDigit (c.toNat / 16 % 16) :: hexDigit (c.toNat % 16) :: cs) = .ok (c, 5) := by
  have hdigit (n : Nat) := hexValue?_hexDigit (n % 16) (Nat.mod_lt n (by decide))
  have hfirst := hexValue?_hexDigit (c.toNat / 4096) (by omega)
  have hnumber : ((c.toNat / 4096 * 16 + c.toNat / 256 % 16) * 16 + c.toNat / 16 % 16) * 16 +
      c.toNat % 16 = c.toNat := by omega
  have hhex : readHex (hexDigit (c.toNat / 4096) :: hexDigit (c.toNat / 256 % 16) ::
      hexDigit (c.toNat / 16 % 16) :: hexDigit (c.toNat % 16) :: cs) = .ok c.toNat := by
    unfold readHex
    simp only [List.take_succ_cons, List.take_zero, List.mapM_cons, List.mapM_nil, hfirst, hdigit,
      Option.pure_def, Option.bind_eq_bind, Option.bind_some, hnumber]
  -- No character is a surrogate.
  have hvalid : c.toNat < 0xD800 ∨ 0xDFFF < c.toNat := c.valid.imp id And.left
  change readUnicode _ = _
  unfold readUnicode
  rw [hhex]
  dsimp only [bind, Except.bind]
  rw [if_neg (by omega)]
  dsimp only [pure, Except.pure]
  rw [if_pos (by omega), Char.ofNat_toNat]

theorem readText_escape {escaped : Char} {used : Nat} {read cs : List Char}
    (h : readEscape cs = .ok (escaped, used)) :
    readText 0 read ('\\' :: cs) = readText used (escaped :: read) cs := by
  rw [readText, if_neg (by decide), if_pos rfl, h]

theorem readEscape_letter {e : Char} (h : (e, c) ∈ escapes) (cs : List Char) :
    readEscape (e :: cs) = .ok (c, 1) := by
  simp only [escapes, List.mem_cons, Prod.mk.injEq, List.not_mem_nil, or_false] at h
  rcases h with ⟨rfl, rfl⟩ | ⟨rfl, rfl⟩ | ⟨rfl, rfl⟩ | ⟨rfl, rfl⟩ | ⟨rfl, rfl⟩ | ⟨rfl, rfl⟩ |
    ⟨rfl, rfl⟩ | ⟨rfl, rfl⟩ <;> rfl

/-- However a character is written, it is read as the character. -/
theorem readText_spellsChar {text : List Char} (h : SpellsChar c text) (read cs : List Char) :
    readText 0 read (text ++ cs) = readText 0 (c :: read) cs := by
  cases h with
  | plain hcontrol hquote hslash =>
    rw [List.singleton_append, readText, if_neg hquote, if_neg hslash,
      if_neg (Nat.not_lt.2 hcontrol)]
  | letter h => exact readText_escape (readEscape_letter h cs)
  | number h => exact readText_escape (readEscape_number h cs)

theorem readText_spells {text quoted : List Char} (h : SpellsChars text quoted)
    (read rest : List Char) :
    readText 0 read (quoted ++ rest) = .ok (String.ofList (read.reverse ++ text), rest) := by
  induction h generalizing read with
  | nil =>
    rw [List.append_nil]
    rfl
  | @cons c cs text more hc _ ih =>
    rw [List.append_assoc, readText_spellsChar hc, ih, List.reverse_cons, List.append_assoc]
    rfl

/-! ### Numbers -/

def Ends (rest : List Char) : Prop :=
  ∀ c ∈ rest.head?, c.isDigit = false ∧ c ≠ '.' ∧ c ≠ 'e' ∧ c ≠ 'E'

theorem Ends.startsWithDigit (h : Ends rest) : startsWithDigit rest = false := by
  cases rest with
  | nil => rfl
  | cons c rest => exact (h c rfl).1

theorem le_ofDigitChars : ∀ (digits : List Char) (value : Nat),
    value ≤ Nat.ofDigitChars 10 digits value
  | [], _ => Nat.le_refl _
  | c :: digits, value => by
    rw [Nat.ofDigitChars_cons]
    have hmore := le_ofDigitChars digits (10 * value + (c.toNat - '0'.toNat))
    omega

theorem absorb_digits {limit : Nat} (hrest : startsWithDigit rest = false) :
    ∀ (digits : List Char) (value count : Nat), (∀ c ∈ digits, c.isDigit = true) →
    Nat.ofDigitChars 10 digits value ≤ limit →
    absorb limit value count (digits ++ rest) =
      (Nat.ofDigitChars 10 digits value, count + digits.length, rest)
  | [], value, count, _, _ => by
    cases rest with
    | nil => rfl
    | cons c rest =>
      have hc : c.isDigit = false := hrest
      simp [absorb, hc, Nat.ofDigitChars]
  | c :: digits, value, count, hdigits, hlimit => by
    rw [Nat.ofDigitChars_cons] at hlimit ⊢
    have hwider := Nat.le_trans (le_ofDigitChars digits _) hlimit
    have hc := hdigits c List.mem_cons_self
    have ih := absorb_digits hrest digits (10 * value + (c.toNat - '0'.toNat)) (count + 1)
      (fun c hc => hdigits c (List.mem_cons_of_mem _ hc)) hlimit
    rw [List.cons_append, absorb, if_pos (by rw [hc, Bool.true_and]; exact decide_eq_true hwider),
      ih, List.length_cons, Nat.add_right_comm, Nat.add_assoc]

theorem digitChar_eq_zero : ∀ n < 10, Nat.digitChar n = '0' → n = 0 := by decide

theorem eq_zero_of_toDigits {more : List Char} (n : Nat) (h : Nat.toDigits 10 n = '0' :: more) :
    n = 0 := by
  induction n using Nat.strongRecOn generalizing more with
  | ind n ih =>
    by_cases hn : n < 10
    · rw [Nat.toDigits_of_lt_base hn] at h
      exact digitChar_eq_zero n hn (List.cons.inj h).1
    rw [Nat.toDigits_of_base_le (by decide) (by omega)] at h
    obtain ⟨c, cs, hfront⟩ :=
      List.exists_cons_of_ne_nil (Nat.toDigits_ne_nil (b := 10) (n := n / 10))
    rw [hfront, List.cons_append] at h
    rw [(List.cons.inj h).1] at hfront
    have hzero := ih (n / 10) (by omega) hfront
    omega

/-- The digits of a number, with nothing behind them that goes on with it, are the number. -/
theorem readNumber_digits (negative : Bool) {n : Nat} (hn : n ≤ significandLimit)
    (hrest : Ends rest) :
    readNumber negative (Nat.toDigits 10 n ++ rest) = .ok (wholeNumber negative n, rest) := by
  have hdigits : ∀ c ∈ Nat.toDigits 10 n, c.isDigit = true :=
    fun c hc => Nat.isDigit_of_mem_toDigits (by decide) (by decide) hc
  have hvalue : Nat.ofDigitChars 10 (Nat.toDigits 10 n) 0 = n :=
    Nat.ofDigitChars_toDigits (by decide) (by decide)
  have habsorb := absorb_digits hrest.startsWithDigit (Nat.toDigits 10 n) 0 0 hdigits
    (hvalue.symm ▸ hn : _ ≤ significandLimit)
  rw [hvalue] at habsorb
  obtain ⟨c, cs, hcs⟩ := List.exists_cons_of_ne_nil (Nat.toDigits_ne_nil (b := 10) (n := n))
  have hc := hdigits c (hcs ▸ List.mem_cons_self)
  -- A zero in front is the whole number.
  have hzero : (decide (c = '0') && startsWithDigit (cs ++ rest)) = false := by
    by_cases h : c = '0'
    · rw [h] at hcs
      have hone := eq_zero_of_toDigits n hcs
      rw [hone, Nat.toDigits_zero] at hcs
      rw [← (List.cons.inj hcs).2, List.nil_append, hrest.startsWithDigit, Bool.and_false]
    · rw [decide_eq_false h, Bool.false_and]
  have hskip : skipDigits rest = (0, rest) := by
    cases rest with
    | nil => rfl
    | cons d rest =>
      have hd := (hrest d rfl).1
      simp [skipDigits, hd]
  rw [hcs, List.cons_append] at habsorb ⊢
  unfold readNumber
  dsimp only
  rw [habsorb, hc, hzero]
  dsimp only
  rw [hskip, if_neg (by decide), if_neg (by decide)]
  dsimp only
  split
  · exact absurd rfl (hrest '.' rfl).2.1
  · exact absurd rfl (hrest 'e' rfl).2.2.1
  · exact absurd rfl (hrest 'E' rfl).2.2.2
  · rw [hrest.startsWithDigit]
    rfl

theorem wholeNumber_natAbs (n : Int64) :
    wholeNumber (decide (n.toInt < 0)) n.toInt.natAbs = .int n := by
  have hfits : Word64.fits n.toInt = true := by
    have hlow := n.le_toInt
    have hhigh := n.toInt_le
    rw [← Int64.toInt_minValue] at hlow
    rw [Word64.fits, Bool.and_eq_true]
    exact ⟨decide_eq_true hlow, decide_eq_true hhigh⟩
  have hword : Word64.ofInt? n.toInt = some n := by
    rw [Word64.ofInt?, if_pos hfits, Int64.ofInt_toInt]
  have hvalue : (if decide (n.toInt < 0) = true then -(n.toInt.natAbs : Int) else n.toInt.natAbs) =
      n.toInt := by
    by_cases hneg : n.toInt < 0
    · rw [if_pos (decide_eq_true hneg)]
      omega
    · rw [if_neg (by simpa using hneg)]
      omega
  have hzero : ¬(decide (n.toInt < 0) && decide (n.toInt.natAbs = 0)) = true := by
    simp
    omega
  unfold wholeNumber
  rw [if_neg hzero, hvalue, hword]

theorem toList_wordText (n : Int64) : (Word64.text n).toList =
    (if n.toInt < 0 then ['-'] else []) ++ Nat.toDigits 10 n.toInt.natAbs := by
  unfold Word64.text
  cases hint : n.toInt with
  | ofNat m =>
    have hsign : ¬ Int.ofNat m < 0 := Int.not_lt.2 (Int.natCast_nonneg m)
    change (Nat.repr m).toList = _
    rw [Nat.repr_eq_ofList_toDigits, String.toList_ofList, if_neg hsign]
    rfl
  | negSucc m =>
    have hsign : Int.negSucc m < 0 := by omega
    change ("-" ++ Nat.repr (m + 1)).toList = _
    rw [String.toList_append, if_pos hsign, Nat.repr_eq_ofList_toDigits]
    congr 1
    exact String.toList_ofList

/-! ### Values -/

/-- What some text is read as, whatever blanks stand in front of it and whatever stands behind
it that does not go on with a number. -/
structure ReadsAs (read : List Char → Reading Document) (cs : List Char) (d : Document) : Prop where
  opens : ∃ c more, cs = c :: more ∧ isBlank c = false ∧ c ≠ ']'
  reads : ∀ blanks rest, Blank blanks → Ends rest → read (blanks ++ (cs ++ rest)) = .ok (d, rest)

theorem ReadsAs.reads_front (h : ReadsAs read cs d)
    (hrest : Ends rest) : read (cs ++ rest) = .ok (d, rest) :=
  h.reads [] rest blank_nil hrest

theorem readsAs_of_front {more : List Char} (hc : isBlank c = false) (hend : c ≠ ']')
    (h : ∀ rest, Ends rest → readValue levels (c :: more ++ rest) = .ok (d, rest)) :
    ReadsAs (readValue levels) (c :: more) d := by
  refine ⟨⟨c, more, rfl, hc, hend⟩, fun blanks rest hblanks hrest => ?_⟩
  rw [readValue.eq_def, skipBlanks_append hblanks, ← readValue.eq_def]
  exact h rest hrest

theorem readsAs_null (levels : Nat) : ReadsAs (readValue levels) ['n', 'u', 'l', 'l'] .null :=
  readsAs_of_front rfl (by decide) fun rest _ => by
    rw [readValue.eq_def]
    rfl

theorem readsAs_bool (levels : Nat) (b : Bool) : ReadsAs (readValue levels)
    (if b then ['t', 'r', 'u', 'e'] else ['f', 'a', 'l', 's', 'e']) (.bool b) := by
  cases b <;> exact readsAs_of_front rfl (by decide) fun rest _ => by
    rw [readValue.eq_def]
    rfl

theorem readsAs_text (levels : Nat) {s : String} {quoted : List Char}
    (h : SpellsChars s.toList quoted) : ReadsAs (readValue levels) ('"' :: quoted) (.text s) :=
  readsAs_of_front rfl (by decide) fun rest _ => by
    rw [readValue.eq_def]
    change (readText 0 [] (quoted ++ rest)).map _ = _
    rw [readText_spells h, List.reverse_nil, List.nil_append, String.ofList_toList]
    rfl

theorem isBlank_of_isDigit (hc : c.isDigit = true) : isBlank c = false := by
  rw [Bool.eq_false_iff]
  intro h
  simp only [isBlank, Bool.or_eq_true, beq_iff_eq] at h
  rcases h with ((rfl | rfl) | rfl) | rfl <;> exact absurd hc (by decide)

theorem readValue_digit (hc : c.isDigit = true) (cs : List Char) :
    readValue levels (c :: cs) = readNumber false (c :: cs) := by
  rw [readValue.eq_def, skipBlanks_cons (isBlank_of_isDigit hc)]
  dsimp only
  split
  case h_1 heq => cases heq
  case h_9 heq =>
    cases heq
    rw [if_pos hc]
  all_goals
    rename_i heq
    cases heq
    exact absurd hc (by decide)

theorem readsAs_int (levels : Nat) (n : Int64) :
    ReadsAs (readValue levels) (Word64.text n).toList (.int n) := by
  have hlimit : n.toInt.natAbs ≤ significandLimit := by
    have hlow := n.le_toInt
    have hhigh := n.toInt_lt
    unfold significandLimit
    rw [Nat.pow_eq]
    omega
  have hvalue := wholeNumber_natAbs n
  rw [toList_wordText]
  by_cases hsign : n.toInt < 0
  · rw [if_pos hsign]
    refine readsAs_of_front rfl (by decide) fun rest hrest => ?_
    rw [readValue.eq_def]
    change readNumber true (Nat.toDigits 10 n.toInt.natAbs ++ rest) = _
    rw [readNumber_digits true hlimit hrest, ← hvalue, decide_eq_true hsign]
  rw [if_neg hsign, List.nil_append]
  obtain ⟨c, cs, hcs⟩ :=
    List.exists_cons_of_ne_nil (Nat.toDigits_ne_nil (b := 10) (n := n.toInt.natAbs))
  have hc : c.isDigit = true :=
    Nat.isDigit_of_mem_toDigits (by decide) (by decide) (hcs ▸ List.mem_cons_self)
  have hend : c ≠ ']' := fun h => absurd (h ▸ hc) (by decide)
  rw [hcs]
  refine readsAs_of_front (isBlank_of_isDigit hc) hend fun rest hrest => ?_
  rw [List.cons_append, readValue_digit hc, ← List.cons_append, ← hcs,
    readNumber_digits false hlimit hrest, ← hvalue, decide_eq_false hsign]

/-! ### Items and entries -/

theorem ends_blanks {blanks : List Char} (hblanks : Blank blanks)
    (hc : c = ',' ∨ c = ']' ∨ c = '\x7d') (rest : List Char) : Ends (blanks ++ c :: rest) := by
  intro d hd
  cases blanks with
  | nil =>
    cases hd
    rcases hc with rfl | rfl | rfl <;> decide
  | cons b blanks =>
    obtain rfl : b = d := by simpa using hd
    have hb := hblanks b List.mem_cons_self
    simp only [isBlank, Bool.or_eq_true, beq_iff_eq] at hb
    rcases hb with ((rfl | rfl) | rfl) | rfl <;> decide

/-- A loop over the parts between two brackets. It reads a part of a text and adds it to what it
has read; then it ends at the closing bracket, or goes on behind a comma if a part can begin
there. -/
structure ReadsPart {α σ : Type} (loop : Nat → σ → List Char → Reading σ) (add : σ → α → σ)
    (result : σ → σ) (closing : Char) (begins : Char → Prop) (text : List Char) (a : α) :
    Prop where
  opens : ∃ c more, text = c :: more ∧ isBlank c = false ∧ begins c
  last : ∀ budget done rest rest', Ends rest → skipBlanks rest = closing :: rest' →
    loop (budget + 1) done (text ++ rest) = .ok (result (add done a), rest')
  comma : ∀ budget done rest behind c more, Ends rest → skipBlanks rest = ',' :: behind →
    skipBlanks behind = c :: more → begins c →
    loop (budget + 1) done (text ++ rest) = loop budget (add done a) (c :: more)

/-- Parts are read up to the closing bracket. The budget is at least their number, which is less
than the number of characters. -/
theorem readParts_spells {α σ : Type} {loop : Nat → σ → List Char → Reading σ} {add : σ → α → σ}
    {result : σ → σ} {closing : Char} {begins : Char → Prop} {spells : α → List Char → Prop}
    (hclosing : closing = ']' ∨ closing = '\x7d')
    (h : ∀ a text, spells a text → ReadsPart loop add result closing begins text a)
    {parts : List α} {cs : List Char} (hparts : SpellsParts spells closing parts cs)
    (rest : List Char) : ∃ c more, skipBlanks (cs ++ rest) = c :: more ∧ begins c ∧
      parts.length ≤ more.length ∧ ∀ done budget, parts.length ≤ budget →
        loop budget done (c :: more) = .ok (result (parts.foldl add done), rest) := by
  have hskip {c : Char} (hc : c = ',' ∨ c = ']' ∨ c = '\x7d') {blanks : List Char}
      (hblanks : Blank blanks) (cs : List Char) : skipBlanks (blanks ++ c :: cs) = c :: cs := by
    rw [skipBlanks_append hblanks]
    rcases hc with rfl | rfl | rfl <;> exact skipBlanks_cons rfl _
  induction hparts with
  | @last a before text behind hbefore ha hbehind =>
    obtain ⟨c, more, rfl, hblank, hbegins⟩ := (h a text ha).opens
    refine ⟨c, more ++ (behind ++ closing :: rest), ?_, hbegins, ?_, fun done budget hbudget => ?_⟩
    · simp [skipBlanks_append hbefore, skipBlanks_cons hblank]
    · simp only [List.length_append, List.length_cons, List.length_nil]
      omega
    · obtain ⟨budget, rfl⟩ := Nat.exists_eq_add_of_le' hbudget
      exact (h a _ ha).last budget done _ rest (ends_blanks hbehind (.inr hclosing) rest)
        (hskip (.inr hclosing) hbehind rest)
  | @comma a next parts before text behind cs hbefore ha hbehind _ ih =>
    obtain ⟨c, more, rfl, hblank, hbegins⟩ := (h a text ha).opens
    obtain ⟨c', more', hnext, hbegins', hlength, hread⟩ := ih
    have hshorter : (skipBlanks (cs ++ rest)).length ≤ (cs ++ rest).length :=
      (List.dropWhile_suffix _).length_le
    rw [hnext] at hshorter
    refine ⟨c, more ++ (behind ++ ',' :: (cs ++ rest)), ?_, hbegins, ?_, fun done budget hbudget => ?_⟩
    · simp [skipBlanks_append hbefore, skipBlanks_cons hblank]
    · simp only [List.length_append, List.length_cons] at hshorter hlength ⊢
      omega
    obtain ⟨budget, rfl⟩ := Nat.exists_eq_add_of_le' hbudget
    refine ((h a _ ha).comma _ done _ (cs ++ rest) c' more'
      (ends_blanks hbehind (.inl rfl) _) (hskip (.inl rfl) hbehind _) hnext hbegins').trans ?_
    exact hread _ _ (Nat.le_add_left _ _)

theorem readsPart_item (h : ReadsAs read cs d) :
    ReadsPart (readItems read) (fun done d => d :: done) List.reverse ']' (· ≠ ']') cs d where
  opens := h.opens
  last budget done rest rest' hrest hskip := by
    simp only [readItems, h.reads_front hrest, hskip]
  comma budget done rest behind c more hrest hcomma hskip hc := by
    simp only [readItems, h.reads_front hrest, hcomma, hskip]
    split
    next heq => cases heq
    next heq =>
      cases heq
      exact absurd rfl hc
    · rfl

theorem readKey_spells
    {e : String × Document} (hentry : SpellsEntry spells e cs)
    (h : ∀ d text, spells d text → ReadsAs read text d) (hrest : Ends rest) :
    ∃ value, readKey (cs ++ rest) = .ok (e.1, value) ∧ read value = .ok (e.2, rest) := by
  obtain @⟨key, d, quoted, before, behind, text, hkey, hbefore, hbehind, hd⟩ := hentry
  refine ⟨behind ++ (text ++ rest), ?_, (h d text hd).reads behind rest hbehind hrest⟩
  have hcolon : skipBlanks (before ++ ':' :: (behind ++ (text ++ rest))) =
      ':' :: (behind ++ (text ++ rest)) := by
    rw [skipBlanks_append hbefore, skipBlanks_cons rfl]
  rw [readKey, List.cons_append, List.drop_succ_cons, List.drop_zero, List.append_assoc,
    readText_spells hkey, List.reverse_nil, List.nil_append, String.ofList_toList]
  simp only [List.append_assoc, List.cons_append, hcolon]

theorem readsPart_entry
    {e : String × Document}
    (hentry : SpellsEntry spells e cs) (h : ∀ d text, spells d text → ReadsAs read text d) :
    ReadsPart (readEntries read) (fun done e => Table.put e.1 e.2 done) id '\x7d' (· = '"') cs
      e where
  opens := by
    cases hentry
    exact ⟨_, _, rfl, rfl, rfl⟩
  last budget done rest rest' hrest hskip := by
    obtain ⟨value, hkey, hread⟩ := readKey_spells hentry h hrest
    simp only [readEntries, hkey, hread, hskip, id]
  comma budget done rest behind c more hrest hcomma hskip hc := by
    obtain ⟨value, hkey, hread⟩ := readKey_spells hentry h hrest
    subst hc
    simp only [readEntries, hkey, hread, hcomma, hskip]

theorem foldl_put : ∀ {entries done : List (String × Document)},
    ((done ++ entries).map Prod.fst).Nodup →
    entries.foldl (fun done e => Table.put e.1 e.2 done) done = done ++ entries
  | [], _, _ => (List.append_nil _).symm
  | e :: entries, done, h => by
    have hnew : e.1 ∉ done.map Prod.fst := by
      rw [List.map_append, List.map_cons] at h
      exact fun hmem => (List.nodup_append.1 h).2.2 e.1 hmem e.1 List.mem_cons_self rfl
    rw [List.append_cons] at h ⊢
    rw [List.foldl_cons, Table.put_of_not_mem hnew, foldl_put h]

/-! ### Documents -/

theorem readsAs_list {α σ : Type} {loop : Nat → σ → List Char → Reading σ} {add : σ → α → σ}
    {result : σ → σ} {opening closing : Char} {begins : Char → Prop}
    {spells : α → List Char → Prop} {start : σ} {make : σ → Document}
    (hblank : isBlank opening = false) (hopening : opening ≠ ']')
    (hclosing : closing = ']' ∨ closing = '\x7d')
    (hempty : ∀ rest rest', skipBlanks rest = closing :: rest' →
      readValue levels (opening :: rest) = .ok (make (result start), rest'))
    (hvalue : ∀ rest c more, skipBlanks rest = c :: more → begins c →
      readValue levels (opening :: rest) =
        (loop (more.length + 1) start (c :: more)).map fun r => (make r.1, r.2))
    (h : ∀ a text, spells a text → ReadsPart loop add result closing begins text a)
    {parts : List α} (hparts : SpellsList spells opening closing parts cs) :
    ReadsAs (readValue levels) cs (make (result (parts.foldl add start))) := by
  cases hparts with
  | empty hblanks =>
    refine readsAs_of_front hblank hopening fun rest _ => ?_
    rw [List.cons_append, List.append_assoc]
    refine hempty _ rest ?_
    rw [skipBlanks_append hblanks]
    rcases hclosing with rfl | rfl <;> exact skipBlanks_cons rfl _
  | parts hparts =>
    refine readsAs_of_front hblank hopening fun rest _ => ?_
    obtain ⟨c, more, hskip, hbegins, hlength, hread⟩ := readParts_spells hclosing h hparts rest
    rw [List.cons_append, hvalue _ c more hskip hbegins, hread _ _ (Nat.le_succ_of_le hlength)]
    rfl

theorem readsAs_array {items : List Document}
    (h : ∀ d text, spells d text → ReadsAs (readValue levels) text d)
    (hitems : SpellsList spells '[' ']' items cs) :
    ReadsAs (readValue (levels + 1)) cs (.array items) := by
  have hempty (rest rest' : List Char) (hskip : skipBlanks rest = ']' :: rest') :
      readValue (levels + 1) ('[' :: rest) = .ok (.array [], rest') := by
    rw [readValue.eq_def, skipBlanks_cons rfl]
    simp only [hskip]
  have hvalue (rest : List Char) (c : Char) (more : List Char) (hskip : skipBlanks rest = c :: more)
      (hc : c ≠ ']') : readValue (levels + 1) ('[' :: rest) =
        (readItems (readValue levels) (more.length + 1) [] (c :: more)).map
          fun r => (.array r.1, r.2) := by
    rw [readValue.eq_def, skipBlanks_cons rfl]
    simp only [hskip]
    split
    next heq => cases heq
    next heq =>
      cases heq
      exact absurd rfl hc
    · rfl
  have hread := readsAs_list rfl (by decide) (.inl rfl) hempty hvalue
    (fun d text hd => readsPart_item (h d text hd)) hitems
  simpa using hread

theorem readsAs_object
    {entries : List (String × Document)} (hkeys : (entries.map Prod.fst).Nodup)
    (h : ∀ d text, spells d text → ReadsAs (readValue levels) text d)
    (hentries : SpellsList (SpellsEntry spells) '\x7b' '\x7d' entries cs) :
    ReadsAs (readValue (levels + 1)) cs (.object entries) := by
  have hempty (rest rest' : List Char) (hskip : skipBlanks rest = '\x7d' :: rest') :
      readValue (levels + 1) ('\x7b' :: rest) = .ok (.object [], rest') := by
    rw [readValue.eq_def, skipBlanks_cons rfl]
    simp only [hskip]
  have hvalue (rest : List Char) (c : Char) (more : List Char) (hskip : skipBlanks rest = c :: more)
      (hc : c = '"') : readValue (levels + 1) ('\x7b' :: rest) =
        (readEntries (readValue levels) (more.length + 1) [] (c :: more)).map
          fun r => (.object r.1, r.2) := by
    subst hc
    rw [readValue.eq_def, skipBlanks_cons rfl]
    simp only [hskip]
  have hread := readsAs_list rfl (by decide) (.inr rfl) hempty hvalue
    (fun e text he => readsPart_entry he h) hentries
  rw [foldl_put (by simpa using hkeys)] at hread
  simpa using hread

/-- A document is what each of its standard texts is read as. -/
theorem readsAs_spells (more : Nat) : ∀ {levels : Nat} {d : Document} {cs : List Char},
    Spells levels d cs → ReadsAs (readValue (levels + more)) cs d
  | 0, _, _, h => h.elim
  | levels + 1, d, cs, h => by
    rw [Nat.add_right_comm]
    cases d with
    | null =>
      cases h
      exact readsAs_null _
    | bool b =>
      cases h
      exact readsAs_bool _ b
    | int n =>
      cases h
      exact readsAs_int _ n
    | float x => exact h.elim
    | text s =>
      obtain ⟨quoted, rfl, h⟩ := h
      exact readsAs_text _ h
    | array items => exact readsAs_array (fun d text => readsAs_spells more) h
    | object entries => exact readsAs_object h.1 (fun d text => readsAs_spells more) h.2

/-- The standard codec writes and reads standard texts. -/
theorem standard_codec : Codec.standard.Standard where
  writes layout levels d := spells_writeAt layout levels 0 d
  reads levels d text hlevels h := by
    have hlimit : levels + (nestingLimit - levels) = nestingLimit :=
      Nat.add_sub_cancel' (Nat.le_of_lt_succ hlevels)
    have hread := (readsAs_spells (nestingLimit - levels) h).reads [] [] blank_nil
      fun c hc => nomatch hc
    rw [hlimit, List.nil_append, List.append_nil] at hread
    change Document.read text = _
    unfold Document.read
    dsimp only
    rw [hread]
    rfl

end Scripting.Document
