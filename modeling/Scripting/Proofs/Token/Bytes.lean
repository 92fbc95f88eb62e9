/-
# Reading by bytes

Reading by byte offsets gives what reading by characters gives, and never overruns. A cursor stands
at a text (`ByteCursor.Stands`) if the bytes from its offset on are those of the text. Every loop
tests single bytes, and every test it makes is the same for all bytes of a character (`Plain`), so a
loop that starts between two characters ends between two. Only a string goes through its
characters byte by byte.
-/
import Scripting.Proofs.Token.Lexemes
import Scripting.Token.Bytes

namespace Scripting

variable {P : Char → Bool} {more : List UInt8}

variable {x : Char} {bs : List UInt8} {b : UInt8}

/-! ### The bytes of characters -/

/-- The UTF-8 form of a text. -/
def bytesOf (text : List Char) : List UInt8 := text.flatMap String.utf8EncodeChar

theorem bytesOf_cons (c : Char) (text : List Char) :
    bytesOf (c :: text) = String.utf8EncodeChar c ++ bytesOf text :=
  List.flatMap_cons

theorem bytesOf_append (text more : List Char) :
    bytesOf (text ++ more) = bytesOf text ++ bytesOf more :=
  List.flatMap_append

theorem toUTF8_eq_bytesOf (source : String) :
    source.toUTF8.data.toList = bytesOf source.toList := by
  rw [String.toUTF8, ← String.utf8Encode_toList, List.utf8Encode, List.data_toByteArray]
  rfl

theorem toNat_byteChar (b : UInt8) : (byteChar b).toNat = b.toNat := by
  have hvalid : b.toNat.isValidChar := .inl (Nat.lt_trans b.toNat_lt (by decide))
  rw [byteChar, Char.ofNat, dif_pos hvalid]
  rfl

theorem utf8EncodeChar_of_lt {c : Char} (h : c.toNat < 128) :
    String.utf8EncodeChar c = [c.toUInt8] :=
  String.utf8EncodeChar_eq_singleton (Char.utf8Size_eq_one_iff.2 (Nat.le_of_lt_succ h))

theorem byteChar_toUInt8 {c : Char} (h : c.toNat < 128) : byteChar c.toUInt8 = c := by
  have hmod : c.toUInt8.toNat = c.toNat := by
    rw [Char.toUInt8, UInt32.toNat_toUInt8]
    exact Nat.mod_eq_of_lt (Nat.lt_trans h (by decide))
  rw [byteChar, hmod, Char.ofNat_toNat]

/-- The bytes of a longer form: the first one is the lead byte and 192 or more, and the others are
128 or more. -/
theorem utf8EncodeChar_of_le {c : Char} (h : 128 ≤ c.toNat) :
    ∃ b bs, String.utf8EncodeChar c = b :: bs ∧ byteChar b = leadByte c ∧ 192 ≤ b.toNat ∧
      ∀ x ∈ bs, 128 ≤ x.toNat := by
  have hmax : c.toNat < 1114112 := by
    rcases c.valid with hv | hv
    · exact Nat.lt_trans hv (by decide)
    · exact hv.2
  have hlast (n : Nat) : 128 ≤ (n % 64 + 128) % 256 := by omega
  have hlead (n m : Nat) (hn : n < 256) (hm : m = n) (hle : 192 ≤ n) :
      byteChar (UInt8.ofNat n) = Char.ofNat m ∧ 192 ≤ (UInt8.ofNat n).toNat := by
    rw [byteChar, UInt8.toNat_ofNat_of_lt' hn, hm]
    exact ⟨rfl, hle⟩
  unfold String.utf8EncodeChar leadByte
  rw [show c.val.toNat = c.toNat from rfl]
  dsimp only
  rw [if_neg (Nat.not_le.2 h), if_neg (Nat.not_lt.2 h)]
  by_cases htwo : c.toNat < 2048
  · rw [if_pos (Nat.le_of_lt_succ htwo), if_pos htwo]
    obtain ⟨hb, hle⟩ := hlead (c.toNat / 64 % 32 + 192) (192 + c.toNat / 64)
      (by omega) (by omega) (by omega)
    exact ⟨_, _, rfl, hb, hle, by simp [hlast]⟩
  rw [if_neg (mt Nat.lt_succ_of_le htwo), if_neg htwo]
  by_cases hthree : c.toNat < 65536
  · rw [if_pos (Nat.le_of_lt_succ hthree), if_pos hthree]
    obtain ⟨hb, hle⟩ := hlead (c.toNat / 4096 % 16 + 224) (224 + c.toNat / 4096)
      (by omega) (by omega) (by omega)
    exact ⟨_, _, rfl, hb, hle, by simp [hlast]⟩
  rw [if_neg (mt Nat.lt_succ_of_le hthree), if_neg hthree]
  obtain ⟨hb, hle⟩ := hlead (c.toNat / 262144 % 8 + 240) (240 + c.toNat / 262144)
    (by omega) (by omega) (by omega)
  exact ⟨_, _, rfl, hb, hle, by simp [hlast]⟩

theorem utf8EncodeChar_eq_cons (c : Char) : ∃ b bs, String.utf8EncodeChar c = b :: bs ∧
    byteChar b = leadByte c ∧ (b.toNat < 128 ∨ 192 ≤ b.toNat) ∧ ∀ x ∈ bs, 128 ≤ x.toNat := by
  by_cases hc : c.toNat < 128
  · refine ⟨_, [], utf8EncodeChar_of_lt hc, ?_, .inl ?_, List.forall_mem_nil _⟩
    · rw [byteChar_toUInt8 hc, leadByte]
      exact (if_pos hc).symm
    · rwa [← toNat_byteChar, byteChar_toUInt8 hc]
  · obtain ⟨b, bs, hbytes, hlead, hb, hbs⟩ := utf8EncodeChar_of_le (Nat.not_lt.1 hc)
    exact ⟨b, bs, hbytes, hlead, .inr hb, hbs⟩

/-- A function that does not tell the characters beyond the first 128 apart. -/
def Plain {α : Type} (f : Char → α) (v : α) : Prop := ∀ c : Char, 128 ≤ c.toNat → f c = v

/-- It takes the same value at a character and at each byte of it. -/
theorem Plain.byte {α : Type} {f : Char → α} {v : α} (hf : Plain f v) {c : Char}
    (hb : b ∈ String.utf8EncodeChar c) : f (byteChar b) = f c := by
  by_cases hc : c.toNat < 128
  · rw [utf8EncodeChar_of_lt hc, List.mem_singleton] at hb
    rw [hb, byteChar_toUInt8 hc]
  have hc := Nat.not_lt.1 hc
  obtain ⟨lead, bs, hbytes, -, hlead, hbs⟩ := utf8EncodeChar_of_le hc
  rw [hbytes, List.mem_cons] at hb
  have hwide : 128 ≤ (byteChar b).toNat := by
    rw [toNat_byteChar]
    rcases hb with rfl | hb
    · exact Nat.le_trans (by decide) hlead
    · exact hbs b hb
  rw [hf _ hwide, hf c hc]

/-- A character where it takes another value is one byte. -/
theorem Plain.lt {α : Type} {f : Char → α} {v : α} (hf : Plain f v) {c : Char} (h : f c ≠ v) :
    c.toNat < 128 :=
  Nat.lt_of_not_le (mt (hf c) h)

theorem plain_beq (hx : x.toNat < 128 := by decide) : Plain (· == x) false := by
  intro c hc
  refine beq_eq_false_iff_ne.2 ?_
  rintro rfl
  exact Nat.not_lt.2 hc hx

theorem plain_isDigit : Plain Char.isDigit false := by
  intro c hc
  have hle : ¬ c.val ≤ '9'.val := fun hle => by
    have hnat : c.toNat ≤ 57 := hle
    omega
  rw [Char.isDigit, decide_eq_false hle, Bool.and_false]

theorem plain_isAlpha : Plain Char.isAlpha false := by
  intro c hc
  have hupper : ¬ c.val ≤ 'Z'.val := fun hle => by
    have hnat : c.toNat ≤ 90 := hle
    omega
  have hlower : ¬ c.val ≤ 'z'.val := fun hle => by
    have hnat : c.toNat ≤ 122 := hle
    omega
  delta Char.isAlpha Char.isUpper Char.isLower
  rw [decide_eq_false fun h => hupper h.2, decide_eq_false hlower, Bool.and_false]
  rfl

theorem Plain.or {Q : Char → Bool} (hP : Plain P false) (hQ : Plain Q false) :
    Plain (fun c => P c || Q c) false :=
  fun c hc => Bool.or_eq_false_iff.2 ⟨hP c hc, hQ c hc⟩

theorem plain_isBlank : Plain isBlank false := .or (.or plain_beq plain_beq) plain_beq

theorem plain_isQuote : Plain isQuote false := .or plain_beq plain_beq

theorem plain_isNameContinue : Plain isNameContinue false :=
  (plain_isAlpha.or plain_isDigit).or plain_beq

theorem plain_isNameStart : Plain isNameStart false := plain_isAlpha.or plain_beq

theorem plain_escaped? : Plain escaped? none := by
  intro c hc
  unfold escaped?
  split <;> first | rfl | exact absurd hc (by decide)

theorem escaped?_lt {c r : Char} (h : escaped? c = some r) : r.toNat < 128 := by
  unfold escaped? at h
  split at h <;> cases h <;> decide

theorem plain_shortSymbol? : Plain shortSymbol? none := by
  intro c hc
  unfold shortSymbol?
  split <;> first | rfl | exact absurd hc (by decide)

theorem plain_longSymbol?_first (next : Char) : Plain (longSymbol? · next) none := by
  intro c hc
  dsimp only
  unfold longSymbol?
  split <;> first | rfl | exact absurd hc (by decide)

theorem plain_longSymbol? (first : Char) : Plain (longSymbol? first) none := by
  intro c hc
  unfold longSymbol?
  split <;> first | rfl | exact absurd hc (by decide)

/-- A loop over bytes with a plain test ends between two characters. -/
theorem takeWhile_bytesOf {v : Bool} (hP : Plain P v) (text : List Char) :
    (bytesOf text).takeWhile (fun b => P (byteChar b)) = bytesOf (text.takeWhile P) := by
  induction text with
  | nil => rfl
  | cons c text ih =>
    rw [bytesOf_cons, List.takeWhile_cons]
    split
    next hc =>
      rw [List.takeWhile_append_of_pos fun b hb => (hP.byte hb).trans hc, ih, bytesOf_cons]
    next hc =>
      obtain ⟨b, bs, hbytes, -⟩ := utf8EncodeChar_eq_cons c
      have hb : P (byteChar b) = P c := by
        refine hP.byte ?_
        rw [hbytes]
        exact .head _
      rw [hbytes, List.cons_append, List.takeWhile_cons_of_neg (by rwa [hb])]
      rfl

theorem map_byteChar_bytesOf {text : List Char} (h : ∀ x ∈ text, x.toNat < 128) :
    (bytesOf text).map byteChar = text := by
  induction text with
  | nil => rfl
  | cons x text ih =>
    obtain ⟨hx, htext⟩ := List.forall_mem_cons.1 h
    rw [bytesOf_cons, utf8EncodeChar_of_lt hx, List.singleton_append, List.map_cons,
      byteChar_toUInt8 hx, ih htext]

theorem newline_of_mem_utf8EncodeChar {c : Char} (h : 10 ∈ String.utf8EncodeChar c) : c = '\n' := by
  have hbyte := (plain_beq (x := '\n')).byte h
  exact eq_of_beq (hbyte.symm.trans (by decide))

theorem foldl_afterByte (h : 10 ∉ bs) (p : Position) :
    bs.foldl Position.afterByte p = ⟨p.line, p.column + bs.length⟩ := by
  induction bs generalizing p with
  | nil => rfl
  | cons b bs ih =>
    rw [List.mem_cons, not_or] at h
    rw [List.foldl_cons, Position.afterByte, if_neg (Ne.symm h.1), ih h.2, List.length_cons]
    congr 1
    dsimp only
    omega

theorem foldl_afterByte_bytesOf (text : List Char) (p : Position) :
    (bytesOf text).foldl Position.afterByte p = p.advance text := by
  induction text generalizing p with
  | nil => rfl
  | cons c text ih =>
    have hchar : (String.utf8EncodeChar c).foldl Position.afterByte p = p.after c := by
      unfold Position.after
      by_cases hc : c = '\n'
      · subst hc
        rfl
      · rw [if_neg hc, foldl_afterByte (mt newline_of_mem_utf8EncodeChar hc),
          String.length_utf8EncodeChar]
    rw [bytesOf_cons, List.foldl_append, hchar, ih, Position.advance_cons]

/-! ### Cursors -/

namespace ByteCursor

def pastBytes (c : ByteCursor) (bs : List UInt8) : ByteCursor :=
  { c with offset := c.offset + bs.length, pos := bs.foldl Position.afterByte c.pos }

def past (c : ByteCursor) (text : List Char) : ByteCursor := c.pastBytes (bytesOf text)

/-- A cursor inside its bytes that has a text in front of it. -/
structure Stands (c : ByteCursor) (text : List Char) : Prop where
  inside : c.offset ≤ c.bytes.length
  left : c.left = bytesOf text

variable {c : ByteCursor} {text rest : List Char}

theorem pastBytes_pastBytes (c : ByteCursor) (bs more : List UInt8) :
    (c.pastBytes bs).pastBytes more = c.pastBytes (bs ++ more) := by
  simp only [pastBytes, List.length_append, List.foldl_append, Nat.add_assoc]

theorem past_past (c : ByteCursor) (text more : List Char) :
    (c.past text).past more = c.past (text ++ more) := by
  simp only [past, pastBytes_pastBytes, bytesOf_append]

theorem pos_past (c : ByteCursor) (text : List Char) : (c.past text).pos = c.pos.advance text :=
  foldl_afterByte_bytesOf text c.pos

theorem left_pastBytes (h : c.left = bs ++ more) :
    (c.pastBytes bs).left = more := by
  rw [left] at h
  rw [left, pastBytes, ← List.drop_drop, h, List.drop_left]

theorem left_pastByte (h : c.left = b :: bs) :
    (c.pastBytes [b]).left = bs :=
  left_pastBytes (show c.left = [b] ++ bs from h)

theorem length_left (c : ByteCursor) : c.left.length = c.bytes.length - c.offset :=
  List.length_drop

theorem Stands.past (h : c.Stands (text ++ rest)) : (c.past text).Stands rest := by
  obtain ⟨hinside, hleft⟩ := h
  rw [bytesOf_append] at hleft
  refine ⟨?_, left_pastBytes hleft⟩
  have hlength := congrArg List.length hleft
  rw [length_left, List.length_append] at hlength
  change c.offset + (bytesOf text).length ≤ c.bytes.length
  omega

theorem Stands.tail (h : c.Stands (x :: rest)) : (c.past [x]).Stands rest :=
  Stands.past (show c.Stands ([x] ++ rest) from h)

theorem Stands.front (h : c.Stands text) {front : List Char} (hfront : front <+: text) :
    (c.past front).Stands (text.drop front.length) := by
  obtain ⟨rest, rfl⟩ := hfront
  rw [List.drop_left]
  exact h.past

theorem Stands.left_cons (h : c.Stands (x :: rest)) (hx : x.toNat < 128 := by decide) :
    c.left = x.toUInt8 :: bytesOf rest := by
  rw [h.left, bytesOf_cons, utf8EncodeChar_of_lt hx]
  rfl

/-! #### Single bytes -/

theorem atEnd_eq (c : ByteCursor) : c.atEnd = c.left.isEmpty := by
  rw [atEnd, left, Bool.eq_iff_iff, List.isEmpty_iff, List.drop_eq_nil_iff, decide_eq_true_iff]

theorem Stands.atEnd (h : c.Stands text) : c.atEnd = text.isEmpty := by
  rw [atEnd_eq, h.left]
  cases text with
  | nil => rfl
  | cons x rest =>
    obtain ⟨b, bs, hbytes, -⟩ := utf8EncodeChar_eq_cons x
    rw [bytesOf_cons, hbytes]
    rfl

theorem ahead_eq (c : ByteCursor) (n : Nat) : c.ahead n = byteChar (c.left[n]?.getD 0) := by
  rw [ahead, left, List.getElem?_drop]

theorem peek_eq (c : ByteCursor) : c.peek = byteChar (c.left.head?.getD 0) := by
  rw [peek, ahead_eq, List.head?_eq_getElem?]

theorem Stands.peek {α : Type} {f : Char → α} {v : α} (hf : Plain f v) (h : c.Stands text) :
    f c.peek = f (text.headD '\x00') := by
  rw [peek_eq, h.left]
  cases text with
  | nil => rfl
  | cons x rest =>
    obtain ⟨b, bs, hbytes, -⟩ := utf8EncodeChar_eq_cons x
    have hb : b ∈ String.utf8EncodeChar x := by
      rw [hbytes]
      exact .head _
    rw [bytesOf_cons, hbytes]
    exact hf.byte hb

theorem Stands.ahead_succ (h : c.Stands (x :: rest)) (hx : x.toNat < 128 := by decide) {n : Nat} :
    c.ahead (n + 1) = (c.past [x]).ahead n := by
  rw [ahead_eq, ahead_eq, h.tail.left, h.left_cons hx]
  rfl

theorem Stands.ahead_one {α : Type} {f : Char → α} {v : α} (hf : Plain f v)
    (h : c.Stands (x :: rest)) (hx : x.toNat < 128 := by decide) :
    f (c.ahead 1) = f (rest.headD '\x00') := by
  rw [h.ahead_succ hx]
  exact h.tail.peek hf

theorem advance_eq (h : c.left = b :: bs) :
    c.advance = .ok (b, c.pastBytes [b]) := by
  have hbyte : c.bytes[c.offset]? = some b := by
    have hhead : c.left[0]? = some b := by rw [h]; rfl
    rwa [left, List.getElem?_drop] at hhead
  rw [advance, hbyte]
  rfl

theorem past_char (x : Char) (c : ByteCursor) :
    c.past [x] = c.pastBytes (String.utf8EncodeChar x) := by
  rw [past, bytesOf_cons, bytesOf, List.flatMap_nil, List.append_nil]

theorem past_singleton (hx : x.toNat < 128) (c : ByteCursor) :
    c.past [x] = c.pastBytes [x.toUInt8] := by
  rw [past_char, utf8EncodeChar_of_lt hx]

theorem Stands.advance (h : c.Stands (x :: rest)) (hx : x.toNat < 128 := by decide) :
    c.advance = .ok (x.toUInt8, c.past [x]) := by
  rw [advance_eq (h.left_cons hx), past_singleton hx]

theorem skip_eq (h : c.left = bs ++ more) :
    c.skip bs.length = .ok (c.pastBytes bs) := by
  induction bs generalizing c with
  | nil => rfl
  | cons b bs ih =>
    have hleft : (c.pastBytes [b]).left = bs ++ more := left_pastByte h
    rw [List.length_cons, skip, advance_eq h]
    exact (ih hleft).trans (congrArg Except.ok (pastBytes_pastBytes c [b] bs))

theorem Stands.skip_one (h : c.Stands (x :: rest)) (hx : x.toNat < 128 := by decide) :
    c.skip 1 = .ok (c.past [x]) := by
  rw [past_singleton hx]
  exact skip_eq (show c.left = [x.toUInt8] ++ bytesOf rest from h.left_cons hx)

/-! #### Loops -/

theorem skipWhile_eq {test : ByteCursor → Bool} {Q : UInt8 → Bool}
    (htest : ∀ c, test c = c.left.head?.any Q) (c : ByteCursor) :
    c.skipWhile test = .ok (c.pastBytes (c.left.takeWhile Q)) := by
  induction hleft : c.left generalizing c with
  | nil =>
    have hstop : test c = false := by rw [htest, hleft]; rfl
    rw [skipWhile, if_neg (by rw [hstop]; exact Bool.false_ne_true)]
    rfl
  | cons b bs ih =>
    have htest' : test c = Q b := by rw [htest, hleft]; rfl
    rw [skipWhile, htest', List.takeWhile_cons]
    split
    · rw [advance_eq hleft]
      exact (ih (c.pastBytes [b]) (left_pastByte hleft)).trans
        (congrArg Except.ok (pastBytes_pastBytes c [b] _))
    · rfl

theorem Stands.skipWhile {test : ByteCursor → Bool} {v : Bool} (hP : Plain P v)
    (htest : ∀ c, test c = c.left.head?.any fun b => P (byteChar b)) (h : c.Stands text) :
    c.skipWhile test = .ok (c.past (text.takeWhile P)) := by
  rw [skipWhile_eq htest, h.left, takeWhile_bytesOf hP]
  rfl

theorem any_peek (P : Char → Bool) (hzero : P '\x00' = false) (c : ByteCursor) :
    P c.peek = c.left.head?.any fun b => P (byteChar b) := by
  rw [peek_eq]
  cases c.left with
  | nil => exact hzero
  | cons b bs => rfl

theorem any_peek_atEnd (P : Char → Bool) (c : ByteCursor) :
    (P c.peek && !c.atEnd) = c.left.head?.any fun b => P (byteChar b) := by
  rw [peek_eq, atEnd_eq]
  cases c.left with
  | nil => exact Bool.and_false _
  | cons b bs => exact Bool.and_true _

theorem Stands.skipBlank (h : c.Stands text) :
    c.skipBlank = .ok (c.past (text.takeWhile isBlank)) :=
  h.skipWhile plain_isBlank (any_peek_atEnd isBlank)

/-- The blank characters in front are single bytes, and so these are told by two offsets. -/
theorem Stands.margin (h : c.Stands text) :
    (c.left.take ((c.past (text.takeWhile isBlank)).offset - c.offset)).map byteChar =
      text.takeWhile isBlank := by
  have hleft := h.left
  rw [← List.takeWhile_append_dropWhile (p := isBlank) (l := text), bytesOf_append] at hleft
  have hoffset : (c.past (text.takeWhile isBlank)).offset - c.offset =
      (bytesOf (text.takeWhile isBlank)).length := Nat.add_sub_cancel_left _ _
  rw [hoffset, hleft, List.take_left]
  refine map_byteChar_bytesOf fun x hx => plain_isBlank.lt (ne_false_of_eq_true ?_)
  exact List.all_eq_true.1 List.all_takeWhile x hx

theorem Stands.skipLine (h : c.Stands text) :
    c.skipLine = .ok (c.past (text.take (lineLength text))) := by
  have hplain : Plain (fun x => x != '\n') true := fun x hx =>
    congrArg not (plain_beq (by decide) x hx)
  have hline : text.take (lineLength text) = text.takeWhile fun x => x != '\n' :=
    (List.prefix_iff_eq_take.1 (List.takeWhile_prefix _)).symm
  rw [hline]
  exact h.skipWhile hplain fun c => (Bool.and_comm _ _).trans (any_peek_atEnd (· != '\n') c)

theorem Stands.skipDigits (h : c.Stands text) :
    c.skipDigits = .ok (c.past (text.takeWhile Char.isDigit)) :=
  h.skipWhile plain_isDigit (any_peek _ rfl)

/-! #### Slices -/

theorem Stands.isEdge (h : c.Stands text) : c.isEdge c.offset = true := by
  have hnext : c.bytes[c.offset]? = c.left[0]? := by
    rw [ByteCursor.left, List.getElem?_drop]
    rfl
  rw [ByteCursor.isEdge, hnext, h.left]
  cases text with
  | nil =>
    have hlength := congrArg List.length h.left
    rw [length_left] at hlength
    have hend := Nat.le_antisymm h.inside (Nat.sub_eq_zero_iff_le.1 hlength)
    exact beq_iff_eq.2 hend
  | cons x rest =>
    obtain ⟨b, bs, hbytes, -, hb, -⟩ := utf8EncodeChar_eq_cons x
    rw [bytesOf_cons, hbytes]
    change (c.offset == 0 || decide (b.toNat < 128) || decide (192 ≤ b.toNat)) = true
    rcases hb with hb | hb
    · rw [decide_eq_true hb, Bool.or_true, Bool.true_or]
    · rw [decide_eq_true hb, Bool.or_true]

theorem decode?_bytesOf (text : List Char) : decode? (bytesOf text) = some text := by
  change (List.utf8Encode text).utf8Decode?.map Array.toList = some text
  rw [List.utf8Decode?_utf8Encode]
  rfl

theorem Stands.slice (h : c.Stands (text ++ rest)) (c' : ByteCursor) (hbytes : c'.bytes = c.bytes) :
    c'.slice c.offset (c.past text).offset = .ok text := by
  have hedge (d : ByteCursor) (hd : d.bytes = c.bytes) {t : List Char} (ht : d.Stands t) :
      c'.isEdge d.offset = true := by
    rw [← ht.isEdge, ByteCursor.isEdge, ByteCursor.isEdge, hbytes, hd]
  have hpart : (c'.bytes.take (c.past text).offset).drop c.offset = bytesOf text := by
    have hleft := h.left
    rw [ByteCursor.left, bytesOf_append] at hleft
    rw [hbytes, List.drop_take, hleft, ByteCursor.past, pastBytes, Nat.add_sub_cancel_left,
      List.take_left]
  have hle : c.offset ≤ (c.past text).offset := Nat.le_add_right _ _
  rw [ByteCursor.slice, hedge c rfl h, hedge (c.past text) rfl h.past,
    decide_eq_true hle, hpart, decode?_bytesOf]
  rfl

/-! #### Strings -/

section String

variable {quote : Char} {start : Position} {read : List UInt8} {wrong : Option Diagnostic}

theorem readString_end (h : c.Stands text) (hend : text.headD '\n' = '\n') :
    c.readString quote start read wrong = .ok (.error ⟨.unterminatedString, start⟩, c) := by
  rw [readString, if_pos]
  rw [h.atEnd, h.peek plain_beq]
  cases text with
  | nil => rfl
  | cons x rest => exact beq_iff_eq.2 hend

theorem readString_cons (h : c.left = b :: bs)
    (hb : byteChar b ≠ '\n') : c.readString quote start read wrong =
      if byteChar b == quote then
        match wrong, decode? read with
        | some d, _ => .ok (.error d, c.pastBytes [b])
        | none, some text => .ok (.ok (String.ofList text), c.pastBytes [b])
        | none, none => .error (.garbled read)
      else if byteChar b == '\\' then
        match bs.head? with
        | none => (c.pastBytes [b]).readString quote start read wrong
        | some e =>
          match escaped? (byteChar e) with
          | some r => (c.pastBytes [b, e]).readString quote start (read ++ [r.toUInt8]) wrong
          | none => (c.pastBytes [b, e]).readString quote start read
              (wrong.orElse fun _ => some ⟨.unknownEscape (byteChar e), (c.pastBytes [b]).pos⟩)
      else (c.pastBytes [b]).readString quote start (read ++ [b]) wrong := by
  have hgo : ¬ (c.atEnd || c.peek == '\n') = true := by
    rw [atEnd_eq, peek_eq, h]
    simpa using hb
  have hrest : (c.pastBytes [b]).left = bs := left_pastByte h
  rw [readString, if_neg hgo]
  split
  next hadvance => rw [advance_eq h] at hadvance; cases hadvance
  next hadvance =>
    rw [advance_eq h] at hadvance
    cases hadvance
    split
    · rfl
    split
    · rw [atEnd_eq, hrest]
      cases bs with
      | nil => rfl
      | cons e more =>
        rw [if_neg (by exact Bool.false_ne_true)]
        split
        next hnext => rw [advance_eq hrest] at hnext; cases hnext
        next hnext =>
          rw [advance_eq hrest] at hnext
          cases hnext
          rw [pastBytes_pastBytes]
          rfl
    · rfl

theorem readString_append (h : c.left = bs ++ more)
    (hbs : ∀ b ∈ bs, byteChar b ≠ '\n' ∧ byteChar b ≠ quote ∧ byteChar b ≠ '\\') :
    c.readString quote start read wrong =
      (c.pastBytes bs).readString quote start (read ++ bs) wrong := by
  induction bs generalizing c read with
  | nil => rw [List.append_nil]; rfl
  | cons b bs ih =>
    obtain ⟨⟨hnewline, hquote, hslash⟩, hbs⟩ := List.forall_mem_cons.1 hbs
    rw [readString_cons h hnewline, if_neg (by simpa using hquote), if_neg (by simpa using hslash),
      ih (left_pastByte h) hbs, pastBytes_pastBytes, List.append_assoc]
    rfl

theorem byteChar_ne {y : Char} (hb : b ∈ String.utf8EncodeChar x) (hy : y.toNat < 128)
    (h : x ≠ y) : byteChar b ≠ y :=
  beq_eq_false_iff_ne.1 (((plain_beq hy).byte hb).trans (beq_eq_false_iff_ne.2 h))

section Steps

variable (hquote : isQuote quote = true)
include hquote

theorem isQuote_lt : quote.toNat < 128 := plain_isQuote.lt (by rw [hquote]; exact Bool.noConfusion)

theorem ne_of_isQuote (hx : isQuote x = false) : x ≠ quote := by
  rintro rfl
  exact Bool.false_ne_true (hx.symm.trans hquote)

theorem readString_quote (h : c.Stands (quote :: rest)) : c.readString quote start read wrong =
    match wrong, decode? read with
    | some d, _ => .ok (.error d, c.past [quote])
    | none, some text => .ok (.ok (String.ofList text), c.past [quote])
    | none, none => .error (.garbled read) := by
  have hlt := isQuote_lt hquote
  have hchar := byteChar_toUInt8 hlt
  rw [readString_cons (h.left_cons hlt) (by rw [hchar]; exact (ne_of_isQuote hquote rfl).symm),
    hchar, if_pos (beq_self_eq_true quote), past_singleton hlt]

theorem readString_slash (h : c.Stands ('\\' :: rest)) : c.readString quote start read wrong =
    match (bytesOf rest).head? with
    | none => (c.past ['\\']).readString quote start read wrong
    | some e =>
      match escaped? (byteChar e) with
      | some r => ((c.past ['\\']).pastBytes [e]).readString quote start (read ++ [r.toUInt8]) wrong
      | none => ((c.past ['\\']).pastBytes [e]).readString quote start read
          (wrong.orElse fun _ => some ⟨.unknownEscape (byteChar e), (c.past ['\\']).pos⟩) := by
  have hslash : ¬ (byteChar '\\'.toUInt8 == quote) = true :=
    mt eq_of_beq (ne_of_isQuote hquote rfl)
  rw [readString_cons h.left_cons (by decide), if_neg hslash, if_pos (by decide)]
  rfl

theorem readString_escape {e r : Char} (h : c.Stands ('\\' :: e :: rest))
    (hr : escaped? e = some r) : c.readString quote start read wrong =
      (c.past ['\\', e]).readString quote start (read ++ [r.toUInt8]) wrong := by
  have he : e.toNat < 128 := plain_escaped?.lt (by rw [hr]; exact Option.some_ne_none r)
  rw [readString_slash hquote h, ← h.tail.left, h.tail.left_cons he]
  dsimp only [List.head?_cons]
  rw [byteChar_toUInt8 he, hr]
  dsimp only
  rw [← past_singleton he, past_past]
  rfl

/-- An escape that stands for nothing takes a byte; the other bytes of its character are kept. -/
theorem readString_unknown {e : Char} (h : c.Stands ('\\' :: e :: rest))
    (hnone : escaped? e = none) : ∃ read', c.readString quote start read wrong =
      (c.past ['\\', e]).readString quote start read'
        (wrong.orElse fun _ => some ⟨.unknownEscape (leadByte e), (c.past ['\\']).pos⟩) := by
  obtain ⟨b, bs, hbytes, hlead, -, hbs⟩ := utf8EncodeChar_eq_cons e
  have hescaped : escaped? (byteChar b) = none := by
    rw [← hnone]
    exact plain_escaped?.byte (hbytes ▸ .head _)
  have hleft := h.tail.left
  rw [bytesOf_cons, hbytes] at hleft
  have hwide (x : UInt8) (hx : x ∈ bs) {y : Char} (hy : y.toNat < 128) : byteChar x ≠ y := by
    rintro rfl
    rw [toNat_byteChar] at hy
    exact Nat.not_lt.2 (hbs x hx) hy
  have hpast : ((c.past ['\\']).pastBytes [b]).pastBytes bs = c.past ['\\', e] := by
    have hchar := c.past_past ['\\'] [e]
    rw [past_char e, hbytes] at hchar
    rw [pastBytes_pastBytes]
    exact hchar
  refine ⟨read ++ bs, ?_⟩
  rw [readString_slash hquote h, ← h.tail.left, hleft, ← hpast,
    ← readString_append (left_pastByte hleft) fun x hx => ⟨hwide x hx (by decide),
      hwide x hx (isQuote_lt hquote), hwide x hx (by decide)⟩]
  dsimp only [List.cons_append, List.head?_cons]
  rw [hescaped, hlead]

theorem readString_char (h : c.Stands (x :: rest)) (hnewline : x ≠ '\n')
    (hx : x ≠ quote) (hslash : x ≠ '\\') : c.readString quote start read wrong =
      (c.past [x]).readString quote start (read ++ String.utf8EncodeChar x) wrong := by
  have hleft := h.left
  rw [bytesOf_cons] at hleft
  rw [readString_append hleft fun b hb => ⟨byteChar_ne hb (by decide) hnewline,
    byteChar_ne hb (isQuote_lt hquote) hx, byteChar_ne hb (by decide) hslash⟩, past_char]

end Steps

def escapeError (c : ByteCursor) (body : List Char) (escape : Char × Nat) : Diagnostic :=
  ⟨.unknownEscape (leadByte escape.1), c.pos.advance (body.take escape.2)⟩

/-- What was found in a string whose body is ahead of a cursor. -/
def ofStringScan (start : Position) (c : ByteCursor) (body : List Char) :
    StringScan → Except Diagnostic String × ByteCursor
  | .closed text unknown length =>
    (match unknown with
      | none => .ok (String.ofList text)
      | some escape => .error (c.escapeError body escape), c.past (body.take length))
  | .unterminated length =>
    (.error ⟨.unterminatedString, start⟩, c.past (body.take length))

/-- A string read byte by byte. What is kept is the text so far, as long as nothing is wrong. -/
theorem readString_eq (hquote : isQuote quote = true) (c : ByteCursor) {body done : List Char}
    {text : List Char} {unknown : Option (Char × Nat)} {seen : Nat} (hseen : done.length = seen)
    (hread : unknown = none → read = bytesOf text.reverse) (h : c.Stands (done ++ body)) :
    (c.past done).readString quote start read (unknown.map (c.escapeError (done ++ body))) =
      .ok (ofStringScan start c (done ++ body) (scanString quote seen text unknown body)) := by
  have hnext {done : List Char} {seen : Nat} (hseen : done.length = seen) (part : List Char) :
      (done ++ part).length = seen + part.length := by
    rw [List.length_append, hseen]
  have htake {done : List Char} {seen : Nat} (hseen : done.length = seen) (x : Char)
      (rest : List Char) : (done ++ x :: rest).take (seen + 1) = done ++ [x] := by
    rw [List.append_cons]
    exact List.take_left' (hnext hseen [x])
  fun_induction scanString quote seen text unknown body generalizing done read with
  | case1 => rw [readString_end h.past rfl, ofStringScan, List.take_left' hseen]
  | case2 => rw [readString_end h.past rfl, ofStringScan, List.take_left' hseen]
  | case3 seen =>
    have hend : (c.past done |>.past ['\\']).Stands [] := h.past.tail
    rw [readString_slash hquote h.past]
    refine (readString_end hend rfl).trans ?_
    rw [past_past, ofStringScan, htake hseen]
  | case4 seen text unknown e rest r hr ih =>
    have hsplit : done ++ '\\' :: e :: rest = (done ++ ['\\', e]) ++ rest :=
      (List.append_assoc done ['\\', e] rest).symm
    have hkept (hunknown : unknown = none) : read ++ [r.toUInt8] = bytesOf (r :: text).reverse := by
      rw [hread hunknown, List.reverse_cons, bytesOf_append, bytesOf_cons,
        utf8EncodeChar_of_lt (escaped?_lt hr)]
      rfl
    rw [readString_escape hquote h.past hr, past_past, hsplit]
    exact ih (hnext hseen _) hkept (hsplit ▸ h)
  | case5 seen text unknown e rest hnone ih =>
    have hsplit : done ++ '\\' :: e :: rest = (done ++ ['\\', e]) ++ rest :=
      (List.append_assoc done ['\\', e] rest).symm
    obtain ⟨read', hunknown⟩ := readString_unknown hquote h.past hnone
    rw [hunknown, past_past, past_past, pos_past, ← htake hseen '\\' (e :: rest)]
    have hcomplaint : ((unknown.map (c.escapeError (done ++ '\\' :: e :: rest))).orElse fun _ =>
          some ⟨.unknownEscape (leadByte e), c.pos.advance
            ((done ++ '\\' :: e :: rest).take (seen + 1))⟩) =
        (unknown.orElse fun _ => some (e, seen + 1)).map
          (c.escapeError (done ++ '\\' :: e :: rest)) := by
      cases unknown <;> rfl
    rw [hcomplaint, hsplit]
    refine ih (hnext hseen _) (fun hboth => ?_) (hsplit ▸ h)
    cases unknown <;> cases hboth
  | case6 seen text unknown rest hnewline hend hescape =>
    rw [readString_quote hquote h.past, past_past, ← htake hseen quote rest]
    cases unknown with
    | some escape => rfl
    | none =>
      rw [hread rfl, decode?_bytesOf]
      rfl
  | case7 seen text unknown x rest hnewline hend hescape hx ih =>
    have hkept (hunknown : unknown = none) :
        read ++ String.utf8EncodeChar x = bytesOf (x :: text).reverse := by
      rw [hread hunknown, List.reverse_cons, bytesOf_append, bytesOf_cons x [], bytesOf.eq_1 [],
        List.flatMap_nil, List.append_nil]
    rw [readString_char hquote h.past hnewline hx (ne_backslash hend hescape), past_past,
      List.append_cons]
    exact ih (hnext hseen _) hkept (List.append_cons .. ▸ h)

end String

/-! #### Tokens -/

open NumberText in
theorem Stands.skipFraction {first : Char} (hfirst : first ≠ '.') (h : c.Stands text) :
    c.skipFraction first = .ok (c.past (fractionPart text)) := by
  rw [ByteCursor.skipFraction, bne, beq_eq_false_iff_ne.2 hfirst, h.peek (plain_beq (x := '.'))]
  by_cases hx : ∃ rest, text = '.' :: rest
  · obtain ⟨rest, rfl⟩ := hx
    rw [h.ahead_one plain_isDigit, h.advance]
    cases rest with
    | nil => rfl
    | cons d rest =>
      rw [fractionPart, List.headD_cons, List.headD_cons]
      cases hd : d.isDigit with
      | false => rfl
      | true =>
        refine h.tail.skipDigits.trans ?_
        rw [past_past, List.takeWhile_cons_of_pos hd]
        rfl
  have hnone : fractionPart text = [] := by
    unfold fractionPart
    split
    · exact absurd ⟨_, rfl⟩ hx
    · rfl
  have hhead : (text.headD '\x00' == '.') = false := by
    cases text with
    | nil => rfl
    | cons x rest => exact beq_eq_false_iff_ne.2 fun hpoint => hx ⟨rest, congrArg (· :: rest) hpoint⟩
  rw [hhead, hnone]
  rfl

open NumberText in
theorem Stands.skipExponent (h : c.Stands text) :
    c.skipExponent = .ok (c.past (exponentPart text)) := by
  have hletter : Plain (fun c => c == 'e' || c == 'E') false := .or plain_beq plain_beq
  have hsigns : Plain (fun c => c == '+' || c == '-') false := .or plain_beq plain_beq
  have hpeek : (c.peek == 'e' || c.peek == 'E') = _ := h.peek hletter
  rw [ByteCursor.skipExponent, hpeek]
  cases text with
  | nil => rfl
  | cons e rest =>
    cases he : (e == 'e' || e == 'E') with
    | false =>
      have hnone : exponentPart (e :: rest) = [] := by
        cases rest with
        | nil => rfl
        | cons x rest => rw [exponentPart, he]; rfl
      rw [List.headD_cons, he, hnone]
      rfl
    | true =>
      have hlt : e.toNat < 128 := hletter.lt (ne_false_of_eq_true he)
      have hone : c.ahead 1 = (c.past [e]).peek := h.ahead_succ hlt
      have hdigit : (c.past [e]).peek.isDigit = _ := h.tail.peek plain_isDigit
      have hsign : ((c.past [e]).peek == '+' || (c.past [e]).peek == '-') = _ := h.tail.peek hsigns
      simp only [List.headD_cons, he, hone, hdigit, hsign, h.advance hlt, bind, Except.bind]
      cases rest with
      | nil => rfl
      | cons x rest =>
        rw [exponentPart, he, List.headD_cons]
        cases hs : (x == '+' || x == '-') with
        | false =>
          cases hx : x.isDigit with
          | false => rfl
          | true =>
            refine h.tail.skipDigits.trans ?_
            rw [past_past, List.takeWhile_cons_of_pos hx]
            rfl
        | true =>
          have hx : x.isDigit = false := by
            rcases (by simpa using hs : x = '+' ∨ x = '-') with rfl | rfl <;> rfl
          have hxlt : x.toNat < 128 := hsigns.lt (ne_false_of_eq_true hs)
          have hany : (c.ahead 2).isDigit = rest.head?.any Char.isDigit := by
            rw [h.ahead_succ hlt, h.tail.ahead_succ hxlt]
            refine (h.tail.tail.peek plain_isDigit).trans ?_
            cases rest <;> rfl
          rw [hx, hany, h.tail.skip_one hxlt]
          cases rest.head?.any Char.isDigit with
          | false => rfl
          | true =>
            refine h.tail.tail.skipDigits.trans ?_
            rw [past_past, past_past]
            rfl

/-- What was found in a text that is ahead of a cursor. -/
def ofScan (c : ByteCursor) (text : List Char) : Scan → Except Diagnostic Token.Kind × ByteCursor
  | .token kind more => (.ok kind, c.past (text.take (more + 1)))
  | .error complaint offset more =>
    (.error ⟨complaint, c.pos.advance (text.take offset)⟩, c.past (text.take (more + 1)))

theorem Stands.slice_back {first : Char} {front : List Char} (hfirst : first.toNat < 128)
    (hfront : front <+: text) (h : c.Stands text) :
    (c.past front).slice ((c.past [first]).offset - 1) (c.past front).offset = .ok front := by
  obtain ⟨more, rfl⟩ := hfront
  rw [past_singleton hfirst]
  exact h.slice _ rfl

theorem error_of_scanNumber {complaint : Complaint} {offset more : Nat}
    (h : scanNumber text = .error complaint offset more) :
    offset = 0 ∧ more = (NumberText.read text).text.length - 1 := by
  unfold scanNumber at h
  dsimp only at h
  split at h
  · cases h
  · split at h <;> cases h; exact ⟨rfl, rfl⟩

section Number

variable {first : Char} (hfirst : first = '.' ∨ first.isDigit = true)
include hfirst

theorem Stands.skipNumber (h : c.Stands (first :: rest)) :
    (c.past [first]).skipNumber first = .ok (c.past (NumberText.read (first :: rest)).text) := by
  have hdigits := h.tail.skipWhile (plain_isDigit.or (plain_beq (x := '_')))
    (any_peek (fun x => x.isDigit || x == '_') rfl)
  have hrest := h.tail.front (List.takeWhile_prefix fun x => x.isDigit || x == '_')
  rw [ByteCursor.skipNumber, hdigits]
  change ((c.past [first]).past _).skipFraction first >>= _ = _
  rw [past_past] at hrest ⊢
  rcases hfirst with rfl | hdigit
  · -- The digits behind a leading point are taken already.
    have hnone : (rest.drop (rest.takeWhile fun x => x.isDigit || x == '_').length).takeWhile
        Char.isDigit = [] := by
      have hhead := List.head?_dropWhile_not (fun x => x.isDigit || x == '_') rest
      have hdrop : (rest.takeWhile (fun x => x.isDigit || x == '_') ++
            rest.dropWhile fun x => x.isDigit || x == '_').drop
          (rest.takeWhile fun x => x.isDigit || x == '_').length =
            rest.dropWhile fun x => x.isDigit || x == '_' := List.drop_left
      rw [List.takeWhile_append_dropWhile] at hdrop
      rw [hdrop]
      cases hmore : rest.dropWhile (fun x => x.isDigit || x == '_') with
      | nil => rfl
      | cons x more =>
        rw [hmore] at hhead
        exact List.takeWhile_cons_of_neg (by simp_all)
    change ByteCursor.skipDigits _ >>= _ = _
    rw [hrest.skipDigits, hnone]
    refine hrest.skipExponent.trans ?_
    rw [past_past]
    rfl
  have hpoint : first ≠ '.' := by
    rintro rfl
    cases hdigit
  have hcons : (first :: rest).takeWhile (fun x => x.isDigit || x == '_') =
      first :: rest.takeWhile fun x => x.isDigit || x == '_' :=
    List.takeWhile_cons_of_pos (by simp [hdigit])
  rw [NumberText.read.eq_2 _ (by simp [hpoint]), hcons, List.length_cons, List.drop_succ_cons,
    hrest.skipFraction hpoint]
  refine (hrest.front (NumberText.isPrefix_fractionPart _)).skipExponent.trans ?_
  rw [past_past, past_past, ← List.append_assoc]
  rfl

theorem Stands.readNumber (h : c.Stands (first :: rest)) :
    (c.past [first]).readNumber first c.pos =
      .ok (c.ofScan (first :: rest) (scanNumber (first :: rest))) := by
  have hlt : first.toNat < 128 := by
    rcases hfirst with rfl | hdigit
    · decide
    · exact plain_isDigit.lt (ne_false_of_eq_true hdigit)
  have hprefix := NumberText.isPrefix_text_read (first :: rest)
  have hread : scanNumber (NumberText.read (first :: rest)).text = scanNumber (first :: rest) := by
    unfold scanNumber
    rw [NumberText.read_text_read hfirst]
  have htake : (first :: rest).take ((NumberText.read (first :: rest)).text.length - 1 + 1) =
      (NumberText.read (first :: rest)).text := by
    rw [Nat.sub_add_cancel (List.length_pos_iff.2 (NumberText.text_read_ne_nil hfirst rest))]
    exact (List.prefix_iff_eq_take.1 hprefix).symm
  rw [ByteCursor.readNumber, h.skipNumber hfirst]
  change ((c.past _).slice _ _ >>= _) = _
  rw [h.slice_back hlt hprefix]
  dsimp only [bind, Except.bind]
  rw [hread]
  cases hscan : scanNumber (first :: rest) with
  | token kind more =>
    rw [ofScan, more_of_scanNumber hscan, htake]
    rfl
  | error complaint offset more =>
    obtain ⟨rfl, rfl⟩ := error_of_scanNumber hscan
    rw [ofScan, htake]
    rfl

end Number

theorem Stands.readWord {first : Char} (hfirst : first.toNat < 128) (h : c.Stands (first :: rest)) :
    (c.past [first]).readWord =
      .ok (.ok (.ofWord (String.ofList (first :: rest.takeWhile isNameContinue))),
        c.past (first :: rest.takeWhile isNameContinue)) := by
  have hword := h.tail.skipWhile plain_isNameContinue (any_peek isNameContinue rfl)
  have hfront : first :: rest.takeWhile isNameContinue <+: first :: rest :=
    List.cons_prefix_cons.2 ⟨rfl, List.takeWhile_prefix _⟩
  rw [ByteCursor.readWord, hword, past_past, List.singleton_append]
  change ((c.past (first :: rest.takeWhile isNameContinue)).slice _ _ >>= _) = _
  rw [h.slice_back hfirst hfront]
  rfl

/-- A character that begins no token is told and passed over as a whole. -/
theorem Stands.refuse {first : Char}
    (hbytes : String.utf8EncodeChar first = b :: bs) (h : c.Stands (first :: rest)) :
    (c.pastBytes [b]).refuse c.pos =
      .ok (c.ofScan (first :: rest) (.error (.unexpectedCharacter first) 0 0)) := by
  have hleft := h.left
  rw [bytesOf_cons, hbytes] at hleft
  have hend : (c.past (first :: rest)).offset = c.bytes.length := by
    have hlength := congrArg List.length h.left
    have hinside := h.inside
    rw [length_left] at hlength
    change c.offset + (bytesOf (first :: rest)).length = _
    omega
  have hslice : (c.pastBytes [b]).slice ((c.pastBytes [b]).offset - 1) (c.pastBytes [b]).bytes.length =
      .ok (first :: rest) := by
    rw [← List.append_nil (first :: rest)] at h
    have hall := h.slice (c.pastBytes [b]) rfl
    rw [hend] at hall
    exact hall
  have hsize : first.utf8Size - 1 = bs.length := by
    rw [← String.length_utf8EncodeChar, hbytes]
    rfl
  rw [ByteCursor.refuse, hslice]
  change ((c.pastBytes [b]).skip (first.utf8Size - 1) >>= _) = _
  rw [hsize, skip_eq (left_pastByte hleft), pastBytes_pastBytes]
  rw [ofScan, List.take_succ_cons, List.take_zero, List.take_zero, past_char, hbytes]
  rfl

theorem Stands.readQuoted {quote : Char} {body : List Char} {opening : Nat} (front : List Char)
    (kind : String → Token.Kind) (hquote : isQuote quote = true) (hfront : front.length = opening + 1)
    (h : c.Stands (front ++ body)) :
    ((c.past front).readString quote c.pos [] none >>= fun found =>
      .ok (found.1.map kind, found.2)) =
      .ok (c.ofScan (front ++ body) (scanQuoted quote opening kind body)) := by
  have hread : (c.past front).readString quote c.pos [] none =
      .ok (ofStringScan c.pos (c.past front) body (scanString quote 0 [] none body)) :=
    readString_eq hquote (c.past front) (show ([] : List Char).length = 0 from rfl)
      (show (none : Option (Char × Nat)) = none → [] = bytesOf [].reverse from fun _ => rfl) h.past
  have htake (n : Nat) : (front ++ body).take (opening + n + 1) = front ++ body.take n := by
    rw [Nat.add_right_comm, ← hfront, List.take_length_add_append]
  rw [hread, scanQuoted]
  cases scanString quote 0 [] none body with
  | unterminated length =>
    rw [ofScan, htake, ← past_past]
    rfl
  | closed text unknown length =>
    cases unknown with
    | none =>
      rw [ofScan, htake, ← past_past]
      rfl
    | some escape =>
      obtain ⟨e, offset⟩ := escape
      dsimp only
      rw [ofScan, htake, Nat.add_right_comm, htake, ← past_past, Position.advance_append, ← pos_past]
      rfl

theorem longSymbol?_zero (first : Char) : longSymbol? first '\x00' = none := by
  unfold longSymbol?
  split <;> first | rfl | contradiction

/-- A character beyond the first 128 begins no token, and its first byte begins none. -/
theorem Stands.nextToken_of_le {first : Char} (hfirst : 128 ≤ first.toNat)
    (h : c.Stands (first :: rest)) :
    c.nextToken = .ok (c.ofScan (first :: rest) (scanToken first rest)) := by
  obtain ⟨b, bs, hbytes, -, hlead, -⟩ := utf8EncodeChar_of_le hfirst
  have hb : 128 ≤ (byteChar b).toNat := by
    rw [toNat_byteChar]
    exact Nat.le_trans (by decide) hlead
  have hleft := h.left
  rw [bytesOf_cons, hbytes] at hleft
  have hlong : rest.head?.bind (longSymbol? first) = none := by
    cases rest with
    | nil => rfl
    | cons x rest => exact plain_longSymbol?_first x _ hfirst
  have hbeq {y : Char} (hy : 128 ≤ y.toNat) (x : Char) (hx : x.toNat < 128 := by decide) :
      (y == x) = false := plain_beq hx _ hy
  have hscan : scanToken first rest = .error (.unexpectedCharacter first) 0 0 := by
    simp only [scanToken, scanSymbol?, hlong, plain_shortSymbol? _ hfirst, Option.map_none,
      hbeq hfirst '.', hbeq hfirst '!', plain_isQuote _ hfirst, hbeq hfirst 'f', hbeq hfirst 'F',
      plain_isDigit _ hfirst, plain_isNameStart _ hfirst, Bool.or_false, Bool.false_and,
      Bool.false_eq_true, if_false]
  simp only [ByteCursor.nextToken, advance_eq hleft, bind, Except.bind, hbeq hb '.',
    plain_longSymbol?_first _ _ hb, plain_shortSymbol? _ hb, hbeq hb '!', plain_isQuote _ hb,
    hbeq hb 'f', hbeq hb 'F', plain_isDigit _ hb, plain_isNameStart _ hb, Bool.or_false,
    Bool.false_and, Bool.false_eq_true, if_false, hscan]
  exact h.refuse hbytes

theorem Stands.nextToken {first : Char} (h : c.Stands (first :: rest)) :
    c.nextToken = .ok (c.ofScan (first :: rest) (scanToken first rest)) := by
  by_cases hwide : 128 ≤ first.toNat
  · exact h.nextToken_of_le hwide
  have hfirst : first.toNat < 128 := Nat.lt_of_not_le hwide
  have hfollowing {P : Char → Bool} (hP : Plain P false) (hzero : P '\x00' = P ' ') :
      P (c.past [first]).peek = P (rest.headD ' ') := by
    rw [h.tail.peek hP]
    cases rest with
    | nil => exact hzero
    | cons x rest => rfl
  have hlong : longSymbol? first (c.past [first]).peek = rest.head?.bind (longSymbol? first) := by
    rw [h.tail.peek (plain_longSymbol? first)]
    cases rest with
    | nil => exact longSymbol?_zero first
    | cons x rest => rfl
  rw [ByteCursor.nextToken, h.advance hfirst]
  dsimp only [bind, Except.bind]
  rw [byteChar_toUInt8 hfirst, hfollowing plain_isDigit rfl, hlong, hfollowing plain_isQuote rfl]
  unfold scanToken scanSymbol?
  dsimp only
  split
  next hpoint => exact h.readNumber (.inl (eq_of_beq (Bool.and_eq_true_iff.1 hpoint).1))
  · cases hsymbol : rest.head?.bind (longSymbol? first) with
    | some s =>
      obtain ⟨x, hx, hs⟩ := Option.bind_eq_some_iff.1 hsymbol
      obtain ⟨more, rfl⟩ := List.head?_eq_some_iff.1 hx
      have hxlt : x.toNat < 128 :=
        (plain_longSymbol? first).lt (by rw [hs]; exact Option.some_ne_none s)
      dsimp only
      rw [h.tail.skip_one hxlt, past_past]
      rfl
    | none =>
      dsimp only
      cases shortSymbol? first with
      | some s => rfl
      | none =>
        dsimp only [Option.map_none]
        split
        · rfl
        split
        next hquote => exact h.readQuoted [first] .str hquote rfl
        · split
          next hfields =>
            have hquote := (Bool.and_eq_true_iff.1 hfields).2
            cases rest with
            | nil => cases hquote
            | cons quote body =>
              have hlt : quote.toNat < 128 := plain_isQuote.lt (ne_false_of_eq_true hquote)
              rw [h.tail.advance hlt]
              dsimp only
              rw [byteChar_toUInt8 hlt, past_past]
              exact h.readQuoted [first, quote] .fstr hquote rfl
          · split
            next hdigit => exact h.readNumber (.inr hdigit)
            · split
              · have hname : first :: rest.takeWhile isNameContinue = (first :: rest).take
                    ((rest.takeWhile isNameContinue).length + 1) :=
                  congrArg _ (List.prefix_iff_eq_take.1 (List.takeWhile_prefix _))
                rw [h.readWord hfirst, List.length_cons, Nat.add_sub_cancel, ofScan, ← hname]
              · rw [past_singleton hfirst]
                exact h.refuse (utf8EncodeChar_of_lt hfirst)

end ByteCursor

/-! ### Steps -/

/-- A state of reading by bytes that is as a state of reading by characters. -/
structure ByteState.Mirrors (s : ByteState) (t : LayoutState) : Prop where
  stands : s.cursor.Stands t.rest
  pos : s.cursor.pos = t.pos
  blocks : s.blocks = t.blocks
  depth : s.depth = t.depth
  lineStart : s.lineStart = t.lineStart

/-- Two steps find the same and lead to states that are alike. -/
inductive ByteStep.Mirrors : ByteStep → LayoutStep → Prop
  | done {s : ByteState} {t : LayoutState} (h : s.Mirrors t) : Mirrors (.done s) (.done t)
  | next {s : ByteState} {t : LayoutState} {found : List Token} {complaint : Option Diagnostic}
      (h : s.Mirrors t) : Mirrors (.next found complaint s) (.next found complaint t)

namespace ByteState

variable {s : ByteState} {t : LayoutState}

theorem Mirrors.moved (h : s.Mirrors t) (n : Nat) :
    ({ s with cursor := s.cursor.past (t.rest.take n) }).Mirrors (t.skip n) := by
  have hstands : (s.cursor.past (t.rest.take n)).Stands (t.rest.drop n) :=
    ByteCursor.Stands.past (by rw [List.take_append_drop]; exact h.stands)
  refine ⟨hstands, ?_, h.blocks, h.depth, h.lineStart⟩
  rw [ByteCursor.pos_past, h.pos]
  rfl

theorem Mirrors.enterLine (h : s.Mirrors t) (width : Nat) :
    (s.enterLine width).Mirrors (t.enterLine width) := by
  obtain ⟨cursor, blocks, depth, lineStart⟩ := s
  obtain ⟨rest, pos, blocks', depth', lineStart'⟩ := t
  obtain ⟨hstands, hpos, hblocks, hdepth, hline⟩ := h
  dsimp only at hstands hpos hblocks hdepth hline
  subst hpos hblocks hdepth hline
  unfold ByteState.enterLine LayoutState.enterLine ByteState.layout
  dsimp only
  by_cases hdeeper : blocks.headD 0 < width
  · simp only [if_pos hdeeper]
    exact .next ⟨hstands, rfl, rfl, rfl, rfl⟩
  simp only [if_neg hdeeper]
  by_cases hkept : (LayoutState.closeBlocks width blocks).1.headD 0 = width
  · simp only [if_pos hkept]
    exact .next ⟨hstands, rfl, rfl, rfl, rfl⟩
  · simp only [if_neg hkept]
    exact .next ⟨hstands, rfl, rfl, rfl, rfl⟩

theorem Mirrors.skipLine (h : s.Mirrors t) : ∃ c, s.cursor.skipLine = .ok c ∧
    ({ s with cursor := c }).Mirrors t.skipLine :=
  ⟨_, h.stands.skipLine, h.moved (lineLength t.rest)⟩

theorem Mirrors.tokenStep (h : s.Mirrors t) {first : Char} {rest : List Char}
    (hrest : t.rest = first :: rest) :
    ∃ r, s.tokenStep = .ok r ∧ r.Mirrors (t.tokenStep first rest) := by
  have hstands := h.stands
  rw [hrest] at hstands
  have hmoved := h.moved
  rw [hrest] at hmoved
  rw [ByteState.tokenStep, hstands.nextToken]
  unfold LayoutState.tokenStep
  cases scanToken first rest with
  | token kind more =>
    refine ⟨_, rfl, ?_⟩
    rw [h.pos, h.depth]
    obtain ⟨hbehind, hpos, hblocks, -, hline⟩ := hmoved (more + 1)
    exact .next ⟨hbehind, hpos, hblocks, rfl, hline⟩
  | error complaint offset more =>
    obtain ⟨c, hskip, hline⟩ := (hmoved (more + 1)).skipLine
    refine ⟨.next [] (some ⟨complaint, t.pos.advance (t.rest.take offset)⟩) { s with cursor := c },
      ?_, .next hline⟩
    change (ByteCursor.skipLine _ >>= _) = _
    rw [hskip, hrest, ← h.pos]
    rfl

theorem Mirrors.peek (h : s.Mirrors t) (hx : x.toNat < 128 := by decide) :
    (s.cursor.peek == x) = (t.rest.headD '\x00' == x) :=
  h.stands.peek (plain_beq hx)

theorem Mirrors.skipBlank (h : s.Mirrors t) : ∃ c, s.cursor.skipBlank = .ok c ∧
    c = s.cursor.past (t.rest.takeWhile isBlank) ∧ ({ s with cursor := c }).Mirrors t.skipBlank := by
  refine ⟨_, h.stands.skipBlank, rfl, ?_⟩
  have hmoved := h.moved (t.rest.takeWhile isBlank).length
  rwa [← List.prefix_iff_eq_take.1 (List.takeWhile_prefix isBlank)] at hmoved

theorem Mirrors.skip_one (h : s.Mirrors t) {rest : List Char} (hrest : t.rest = x :: rest)
    (hx : x.toNat < 128 := by decide) : ∃ c, s.cursor.skip 1 = .ok c ∧
    ({ s with cursor := c }).Mirrors (t.skip 1) := by
  have hstands := h.stands
  have hmoved := h.moved 1
  rw [hrest] at hstands hmoved
  exact ⟨_, hstands.skip_one hx, hmoved⟩

/-- Behind a comment its newline is passed over, unless the text ends with the comment. -/
theorem Mirrors.skipWholeLine (h : s.Mirrors t) : ∃ c c', s.cursor.skipLine = .ok c ∧
    (if c.atEnd = true then .ok c else c.skip 1) = .ok c' ∧
      ({ s with cursor := c' }).Mirrors (t.skipLine.skip 1) := by
  obtain ⟨c, hskip, hmoved⟩ := h.skipLine
  have hend : c.atEnd = t.skipLine.rest.isEmpty := hmoved.stands.atEnd
  refine ⟨c, ?_⟩
  rcases LayoutState.drop_lineLength t.rest with hnil | ⟨tail, hline⟩
  · change t.skipLine.rest = [] at hnil
    have hsame : t.skipLine.skip 1 = t.skipLine := by
      generalize t.skipLine = t at hnil
      obtain ⟨rest, pos, blocks, depth, lineStart⟩ := t
      cases hnil
      rfl
    exact ⟨c, hskip, if_pos (by rw [hend, hnil]; rfl), by rw [hsame]; exact hmoved⟩
  · change t.skipLine.rest = '\n' :: tail at hline
    obtain ⟨c', hskip', hbeyond⟩ := hmoved.skip_one hline
    have hmore : c.atEnd ≠ true := by rw [hend, hline]; exact Bool.false_ne_true
    exact ⟨c', hskip, (if_neg hmore).trans hskip', hbeyond⟩

theorem Mirrors.inlineStep (h : s.Mirrors t) :
    ∃ r, s.inlineStep = .ok r ∧ r.Mirrors t.inlineStep := by
  obtain ⟨c, hskip, -, h⟩ := h.skipBlank
  rw [ByteState.inlineStep, hskip]
  change ∃ r, ByteState.solidStep _ = .ok r ∧ _
  unfold LayoutState.inlineStep
  dsimp only
  generalize ({ s with cursor := c } : ByteState) = s at h
  generalize t.skipBlank = t at h
  have hstep := ByteState.solidStep.eq_1 s
  rw [h.stands.atEnd, h.peek, h.peek, h.peek] at hstep
  split
  next hrest =>
    rw [hstep, hrest]
    exact ⟨_, rfl, .done h⟩
  next rest hrest =>
    obtain ⟨c, hskip, hmoved⟩ := h.skip_one hrest
    rw [hstep, hrest, hskip, h.pos, ← h.depth]
    by_cases hdepth : s.depth = 0
    · rw [if_pos hdepth]
      exact ⟨_, if_pos hdepth, .next ⟨hmoved.stands, hmoved.pos, hmoved.blocks, hmoved.depth, rfl⟩⟩
    · rw [if_neg hdepth]
      exact ⟨_, if_neg hdepth, .next hmoved⟩
  next rest hrest =>
    obtain ⟨c, hskip, hmoved⟩ := h.skipLine
    rw [hstep, hrest, hskip]
    exact ⟨_, rfl, .next hmoved⟩
  next rest hrest =>
    have hstands := h.stands
    have hmoved := h.moved 2
    rw [hrest] at hstands hmoved
    have hnext : (s.cursor.ahead 1 == '\n') = true := hstands.ahead_one plain_beq
    have hskip : s.cursor.skip 2 = .ok (s.cursor.past ['\\', '\n']) := by
      rw [ByteCursor.skip, hstands.advance]
      exact (hstands.tail.skip_one).trans
        (congrArg Except.ok (s.cursor.past_past ['\\'] ['\n']))
    rw [hstep, hrest, hnext, hskip]
    exact ⟨_, rfl, .next hmoved⟩
  next first rest hnewline hhash hslash hrest =>
    have hstands := h.stands
    rw [hrest] at hstands
    have hplain : (first == '\\' && s.cursor.ahead 1 == '\n') = false := by
      rw [Bool.and_eq_false_iff]
      by_cases hfirst : first = '\\'
      · subst hfirst
        refine .inr ((hstands.ahead_one (plain_beq (x := '\n'))).trans ?_)
        cases rest with
        | nil => rfl
        | cons x rest =>
          refine beq_eq_false_iff_ne.2 ?_
          rintro rfl
          exact hslash rest rfl rfl
      · exact .inl (beq_eq_false_iff_ne.2 hfirst)
    rw [hstep, hrest, List.headD_cons, beq_eq_false_iff_ne.2 hnewline, beq_eq_false_iff_ne.2 hhash,
      hplain]
    exact h.tokenStep hrest

theorem Mirrors.lineStep (h : s.Mirrors t) :
    ∃ r, s.lineStep = .ok r ∧ r.Mirrors t.lineStep := by
  obtain ⟨c, hskip, hc, hbehind⟩ := h.skipBlank
  have hmargin := h.stands.margin
  rw [← hc] at hmargin
  rw [ByteState.lineStep, hskip]
  change ∃ r, ByteState.marginStep _ _ = .ok r ∧ _
  rw [hmargin]
  unfold LayoutState.lineStep
  dsimp only
  rw [show t.skip (t.rest.takeWhile isBlank).length = t.skipBlank from rfl]
  generalize ({ s with cursor := c } : ByteState) = s at hbehind
  generalize t.rest.takeWhile isBlank = margin
  generalize t.skipBlank = t at hbehind
  have hstep := ByteState.marginStep.eq_1 s margin
  rw [hbehind.stands.atEnd, hbehind.peek, hbehind.peek] at hstep
  split
  next hrest =>
    rw [hstep, hrest]
    refine ⟨_, rfl, .next ⟨?_, hbehind.pos, hbehind.blocks, hbehind.depth, rfl⟩⟩
    exact hrest ▸ hbehind.stands
  next rest hrest =>
    obtain ⟨c, hskip, hmoved⟩ := hbehind.skip_one hrest
    rw [hstep, hrest, hskip]
    exact ⟨_, rfl, .next hmoved⟩
  next rest hrest =>
    obtain ⟨c, c', hskip, hnext, hbeyond⟩ := hbehind.skipWholeLine
    rw [hstep, hrest, hskip]
    refine ⟨.next [] none { s with cursor := c' }, ?_, .next hbeyond⟩
    change ((if c.atEnd = true then .ok c else c.skip 1) >>= _) = _
    rw [hnext]
    rfl
  next first rest hnewline hhash hrest =>
    rw [hstep, hrest, List.headD_cons, beq_eq_false_iff_ne.2 hnewline, beq_eq_false_iff_ne.2 hhash]
    exact ⟨_, rfl, hbehind.enterLine _⟩

theorem Mirrors.step (h : s.Mirrors t) : ∃ r, s.step = .ok r ∧ r.Mirrors t.step := by
  rw [ByteState.step, h.lineStart, LayoutState.step]
  split
  · exact h.lineStep
  · exact h.inlineStep

/-- Reading by bytes finds all that reading by characters finds, if there are enough steps. -/
theorem Mirrors.run (h : s.Mirrors t) {budget : Nat} (hbudget : t.remaining < budget)
    (tokens : Array Token) (diagnostics : Array Diagnostic) :
    ∃ final, ByteState.run budget s tokens diagnostics =
        .ok (final, (t.run tokens diagnostics).2) ∧
      final.Mirrors (t.run tokens diagnostics).1 := by
  induction budget generalizing s t tokens diagnostics with
  | zero => exact absurd hbudget (Nat.not_lt_zero _)
  | succ budget ih =>
    obtain ⟨r, hstep, hmirrors⟩ := h.step
    rw [ByteState.run, hstep, LayoutState.run]
    cases htext : t.step with
    | done final =>
      rw [htext] at hmirrors
      cases hmirrors with
      | done hfinal => exact ⟨_, rfl, hfinal⟩
    | next found complaint t' =>
      rw [htext] at hmirrors
      have hless := LayoutState.step_remaining_lt htext
      cases hmirrors with
      | next hnext => exact ih hnext (by omega) _ _

end ByteState

theorem length_le_bytesOf (text : List Char) : text.length ≤ (bytesOf text).length := by
  induction text with
  | nil => exact Nat.le_refl _
  | cons x text ih =>
    have hsize := x.utf8Size_pos
    rw [bytesOf_cons, List.length_append, String.length_utf8EncodeChar, List.length_cons]
    omega

/-- Reading the bytes of a text never overruns and gives its tokens. -/
theorem tokenizeBytes_eq (source : String) :
    tokenizeBytes source.toUTF8.data.toList = .ok (tokenize source) := by
  rw [toUTF8_eq_bytesOf]
  have hlength := length_le_bytesOf source.toList
  have hmirrors : ByteState.Mirrors ⟨⟨bytesOf source.toList, 0, .start⟩, [], 0, true⟩
      (.initial source.toList .start) := ⟨⟨Nat.zero_le _, rfl⟩, rfl, rfl, rfl, rfl⟩
  have hbudget : (LayoutState.initial source.toList .start).remaining <
      2 * (bytesOf source.toList).length + 2 := by
    change 2 * source.toList.length + 1 < _
    omega
  obtain ⟨final, hrun, hfinal⟩ := hmirrors.run hbudget #[] #[]
  rw [tokenizeBytes, hrun, tokenize, tokenizeAt]
  generalize (LayoutState.initial source.toList .start).run #[] #[] = result at hfinal
  obtain ⟨t, tokens, diagnostics⟩ := result
  have hclosing (last : Option Token) : final.layout.closing last = t.closing last := by
    unfold LayoutState.closing
    rw [show final.layout.pos = t.pos from hfinal.pos,
      show final.layout.blocks = t.blocks from hfinal.blocks]
  dsimp only [bind, Except.bind]
  rw [hclosing]
  split <;> rfl

end Scripting
