/-
# What a scan takes

A token is told by the characters it takes: a text of just these has the same token
(`scanToken_take`). What is wrong with a token never concerns the layout (`scanToken_code`).
-/
import Scripting.Proofs.Token.Scan

namespace Scripting

variable {more offset : Nat} {first : Char} {rest : List Char} {kind : Token.Kind}
  {complaint : Complaint}

/-! ### A token is told by what it takes -/

theorem takeWhile_takeWhile_append {P : Char → Bool} {tail : List Char}
    (htail : ∀ c ∈ tail.head?, P c = false) :
    ∀ text : List Char, (text.takeWhile P ++ tail).takeWhile P = text.takeWhile P
  | [] => by
    cases tail with
    | nil => rfl
    | cons c tail => exact List.takeWhile_cons_of_neg (by simp [htail c rfl])
  | c :: text => by
    by_cases hc : P c = true
    · rw [List.takeWhile_cons_of_pos hc, List.cons_append, List.takeWhile_cons_of_pos hc,
        takeWhile_takeWhile_append htail text]
    · rw [List.takeWhile_cons_of_neg hc]
      exact takeWhile_takeWhile_append htail []

namespace NumberText

theorem head_exponentPart (text : List Char) :
    ∀ c ∈ (exponentPart text).head?, c = 'e' ∨ c = 'E' := by
  intro c hc
  unfold exponentPart at hc
  split at hc
  next e _ _ =>
    split at hc
    next he =>
      have heq : e = c := by
        split at hc
        · simpa using hc
        · split at hc
          · simpa using hc
          · cases hc
      simpa [heq] using he
    · cases hc
  · cases hc

theorem exponentPart_exponentPart (text : List Char) :
    exponentPart (exponentPart text) = exponentPart text := by
  match text with
  | [] | [_] => rfl
  | e :: c :: rest =>
    have hdigits : (rest.takeWhile Char.isDigit ++ []).takeWhile Char.isDigit =
        rest.takeWhile Char.isDigit :=
      takeWhile_takeWhile_append (by simp) rest
    rw [List.append_nil] at hdigits
    rw [exponentPart]
    split
    next he =>
      split
      next hc => rw [exponentPart, if_pos he, if_pos hc, hdigits]
      next hc =>
        split
        next hsign =>
          have hhead : (rest.takeWhile Char.isDigit).head?.any Char.isDigit = true := by
            rw [Bool.and_eq_true] at hsign
            cases rest with
            | nil => simp at hsign
            | cons d rest =>
              have hd : d.isDigit = true := hsign.2
              rw [List.takeWhile_cons_of_pos hd]
              exact hd
          rw [Bool.and_eq_true] at hsign
          rw [exponentPart, if_pos he, if_neg hc, if_pos (by rw [hsign.1, hhead]; rfl), hdigits]
        · rfl
    · rfl

theorem fractionPart_cases (text : List Char) : fractionPart text = [] ∨ ∃ c rest,
    text = '.' :: c :: rest ∧ c.isDigit = true ∧
    fractionPart text = '.' :: c :: rest.takeWhile Char.isDigit := by
  unfold fractionPart
  split
  next c rest =>
    split
    next hc => exact .inr ⟨c, rest, rfl, hc, rfl⟩
    · exact .inl rfl
  · exact .inl rfl

theorem fractionPart_append (text text' : List Char) :
    fractionPart (fractionPart text ++ exponentPart text') = fractionPart text := by
  have hhead := head_exponentPart text'
  rcases fractionPart_cases text with hnone | ⟨c, rest, -, hc, hsome⟩
  · rw [hnone, List.nil_append]
    generalize exponentPart text' = tail at hhead
    cases tail with
    | nil => rfl
    | cons e tail => rcases hhead e rfl with rfl | rfl <;> rfl
  have hdigit : ∀ e ∈ (exponentPart text').head?, e.isDigit = false := fun e he => by
    rcases hhead e he with rfl | rfl <;> rfl
  rw [hsome, List.cons_append, List.cons_append, fractionPart, if_pos hc,
    takeWhile_takeWhile_append hdigit]

theorem head_fraction_exponent (text text' : List Char) :
    ∀ c ∈ (fractionPart text ++ exponentPart text').head?, (c.isDigit || c == '_') = false := by
  intro c hc
  rcases fractionPart_cases text with hnone | ⟨d, rest, -, -, hsome⟩
  · rw [hnone, List.nil_append] at hc
    rcases head_exponentPart text' c hc with rfl | rfl <;> rfl
  · rw [hsome] at hc
    cases hc
    rfl

/-- A number is told by its own text. -/
theorem read_text_read (hfirst : first = '.' ∨ first.isDigit = true) (rest : List Char) :
    read (read (first :: rest)).text = read (first :: rest) := by
  rcases hfirst with rfl | hdigit
  · have hread (text : List Char) : read ('.' :: text) =
        ⟨[], '.' :: text.takeWhile fun c => c.isDigit || c == '_',
          exponentPart (text.drop (text.takeWhile fun c => c.isDigit || c == '_').length)⟩ := rfl
    rw [hread rest]
    generalize hdigits : rest.takeWhile (fun c => c.isDigit || c == '_') = digits
    generalize rest.drop digits.length = tail
    have htake :
        (digits ++ exponentPart tail).takeWhile (fun c => c.isDigit || c == '_') = digits := by
      rw [← hdigits]
      exact takeWhile_takeWhile_append (head_fraction_exponent [] tail) rest
    rw [show text ⟨[], '.' :: digits, exponentPart tail⟩ =
        '.' :: (digits ++ exponentPart tail) from rfl,
      hread, htake, List.drop_left, exponentPart_exponentPart]
  have hpoint : first ≠ '.' := by
    rintro rfl
    cases hdigit
  have hread (text : List Char) : read (first :: text) =
      (let whole := (first :: text).takeWhile fun c => c.isDigit || c == '_'
      let rest := (first :: text).drop whole.length
      ⟨whole, fractionPart rest, exponentPart (rest.drop (fractionPart rest).length)⟩) :=
    read.eq_2 _ (by simp [hpoint])
  have htake (text : List Char) (htext : ∀ c ∈ text.head?, (c.isDigit || c == '_') = false) :
      ((first :: rest).takeWhile (fun c => c.isDigit || c == '_') ++ text).takeWhile
        (fun c => c.isDigit || c == '_') =
          (first :: rest).takeWhile fun c => c.isDigit || c == '_' :=
    takeWhile_takeWhile_append htext _
  have hcons : (first :: rest).takeWhile (fun c => c.isDigit || c == '_') =
      first :: rest.takeWhile fun c => c.isDigit || c == '_' :=
    List.takeWhile_cons_of_pos (by simp [hdigit])
  rw [hread rest]
  dsimp only
  rw [hcons] at htake ⊢
  generalize rest.takeWhile (fun c => c.isDigit || c == '_') = digits at htake
  generalize (first :: rest).drop (first :: digits).length = tail
  generalize tail.drop (fractionPart tail).length = tail'
  have hmore := htake _ (head_fraction_exponent tail tail')
  rw [show text ⟨first :: digits, fractionPart tail, exponentPart tail'⟩ =
      first :: (digits ++ (fractionPart tail ++ exponentPart tail')) from
    List.append_assoc _ _ _, hread, ← List.cons_append]
  dsimp only
  rw [hmore, List.drop_left, fractionPart_append, List.drop_left, exponentPart_exponentPart]

theorem text_read_ne_nil (hfirst : first = '.' ∨ first.isDigit = true) (rest : List Char) :
    (read (first :: rest)).text ≠ [] := by
  rcases hfirst with rfl | hdigit
  · exact List.cons_ne_nil _ _
  have hpoint : first ≠ '.' := by
    rintro rfl
    cases hdigit
  rw [read.eq_2 _ (by simp [hpoint]), List.takeWhile_cons_of_pos (by simp [hdigit])]
  exact List.cons_ne_nil _ _

end NumberText

theorem more_of_scanNumber {text : List Char} (h : scanNumber text = .token kind more) :
    more = (NumberText.read text).text.length - 1 := by
  unfold scanNumber at h
  dsimp only at h
  split at h
  · cases h; rfl
  · split at h <;> cases h; rfl

theorem scanNumber_take (hfirst : first = '.' ∨ first.isDigit = true)
    (h : scanNumber (first :: rest) = .token kind more) :
    scanNumber (first :: rest.take more) = .token kind more := by
  have hmore := more_of_scanNumber h
  have hpos := List.length_pos_iff.2 (NumberText.text_read_ne_nil hfirst rest)
  have htext : first :: rest.take more = (NumberText.read (first :: rest)).text := by
    rw [← List.take_succ_cons,
      show more + 1 = (NumberText.read (first :: rest)).text.length by omega]
    exact (List.prefix_iff_eq_take.1 (NumberText.isPrefix_text_read _)).symm
  rw [htext, ← h]
  unfold scanNumber
  rw [NumberText.read_text_read hfirst]

theorem scanQuoted_take {quote : Char} {opening : Nat} {literal : String → Token.Kind}
    {body : List Char} (h : scanQuoted quote opening literal body = .token kind more) :
    opening < more ∧
    scanQuoted quote opening literal (body.take (more - opening)) = .token kind more :=
  have hsame := scanQuoted_of_front h
  ⟨hsame.1, hsame.2.2 _ List.prefix_rfl⟩

theorem scanSymbol?_take {s : Symbol} (h : scanSymbol? first rest = some (s, more)) :
    scanSymbol? first (rest.take more) = some (s, more) := by
  unfold scanSymbol? at h ⊢
  split at h
  next hlong =>
    cases h
    cases rest with
    | nil => cases hlong
    | cons c rest =>
      rw [List.take_succ_cons, List.head?_cons]
      rw [List.head?_cons] at hlong
      rw [hlong]
  · obtain ⟨short, hshort, heq⟩ := Option.map_eq_some_iff.1 h
    cases heq
    simp [hshort]

theorem scanSymbol?_take_none (n : Nat) (h : scanSymbol? first rest = none) :
    scanSymbol? first (rest.take n) = none := by
  unfold scanSymbol? at h ⊢
  split at h
  · cases h
  next hlong =>
    cases n with
    | zero => simpa using h
    | succ n =>
      rw [List.head?_take, if_neg (Nat.succ_ne_zero n), hlong]
      exact h

theorem following_take {P : Char → Bool} (hP : P ' ' = false) (n : Nat)
    (h : ¬ P (rest.headD ' ') = true) : ¬ P ((rest.take n).headD ' ') = true := by
  cases n with
  | zero => simp [hP]
  | succ n =>
    cases rest with
    | nil => exact h
    | cons c rest => exact h

/-- The characters of a token alone make up the same token. -/
theorem scanToken_take (h : scanToken first rest = .token kind more) :
    scanToken first (rest.take more) = .token kind more := by
  unfold scanToken at h ⊢
  dsimp only at h ⊢
  split at h
  next hpoint =>
    rw [Bool.and_eq_true, beq_iff_eq] at hpoint
    obtain ⟨rfl, hdigit⟩ := hpoint
    cases rest with
    | nil => cases hdigit
    | cons c rest =>
      -- The digit behind the point belongs to the number.
      have hc : c.isDigit = true := hdigit
      have hlength : 1 < (NumberText.read ('.' :: c :: rest)).text.length := by
        rw [NumberText.read, List.takeWhile_cons_of_pos (by simp [hc])]
        exact Nat.le_add_left 2 _
      have hmore := more_of_scanNumber h
      rcases more with _ | n
      · omega
      exact (if_pos hc).trans (scanNumber_take (.inl rfl) h)
  next hpoint =>
    have hpoint' : ¬ (first == '.' && ((rest.take more).headD ' ').isDigit) = true := by
      rw [Bool.and_eq_true, not_and] at hpoint ⊢
      exact fun hfirst => following_take rfl more (hpoint hfirst)
    rw [if_neg hpoint']
    split at h
    next hsymbol =>
      cases h
      rw [scanSymbol?_take hsymbol]
    next hsymbol =>
      rw [scanSymbol?_take_none more hsymbol]
      dsimp only
      split at h
      · cases h
      next hbang =>
        rw [if_neg hbang]
        split at h
        next hstr =>
          rw [if_pos hstr]
          exact (scanQuoted_take h).2
        next hstr =>
          rw [if_neg hstr]
          split at h
          next hfstr =>
            cases rest with
            | nil => simp [isQuote] at hfstr
            | cons c rest =>
              obtain ⟨hmore, htake⟩ := scanQuoted_take h
              rcases more with _ | n
              · omega
              exact (if_pos hfstr).trans htake
          next hfstr =>
            have hfstr' : ¬ ((first == 'f' || first == 'F') &&
                isQuote ((rest.take more).headD ' ')) = true := by
              rw [Bool.and_eq_true, not_and] at hfstr ⊢
              exact fun hfirst => following_take rfl more (hfstr hfirst)
            rw [if_neg hfstr']
            split at h
            next hdigit =>
              rw [if_pos hdigit]
              exact scanNumber_take (.inr hdigit) h
            next hdigit =>
              rw [if_neg hdigit]
              split at h
              next hname =>
                cases h
                have htake : rest.take (rest.takeWhile isNameContinue).length =
                    rest.takeWhile isNameContinue :=
                  (List.prefix_iff_eq_take.1 (List.takeWhile_prefix _)).symm
                have hagain : (rest.takeWhile isNameContinue ++ []).takeWhile isNameContinue =
                    rest.takeWhile isNameContinue := takeWhile_takeWhile_append (by simp) rest
                rw [List.append_nil] at hagain
                rw [if_pos hname, List.length_cons, Nat.add_sub_cancel, htake, hagain]
                rfl
              · cases h

/-! ### What is wrong with a token -/

theorem scanQuoted_code {quote : Char} {opening : Nat} {literal : String → Token.Kind}
    {body : List Char} (h : scanQuoted quote opening literal body = .error complaint offset more) :
    complaint.code ≠ .L004 := by
  unfold scanQuoted at h
  split at h <;> cases h <;> nofun

theorem scanNumber_code {text : List Char} (h : scanNumber text = .error complaint offset more) :
    complaint.code ≠ .L004 := by
  unfold scanNumber at h
  dsimp only at h
  split at h
  · cases h
  · split at h <;> cases h
    nofun

theorem scanToken_code (h : scanToken first rest = .error complaint offset more) :
    complaint.code ≠ .L004 := by
  have hcases := scanToken_cases first rest
  generalize scanToken first rest = scan at h hcases
  cases hcases with
  | number => exact scanNumber_code h
  | text | fields => exact scanQuoted_code h
  | symbol | name => cases h
  | bang | unknown => cases h; nofun

end Scripting
