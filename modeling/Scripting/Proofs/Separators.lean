/-
# Texts cut at a separator

Splitting, counting and replacing scan a text each on its own, and they come to the same
occurrences of a separator: the leftmost one, then the leftmost one behind it, and so on, so that
occurrences which overlap are not all taken (`Leftmost`). A text has one such way of being cut
(`Leftmost.unique`). A cut finds it (`cut_leftmost`), and the other scans keep step with the cut
(`countFrom_eq_cut`, `substitute_eq_cut`).

What scripts rely on follows from it (`splitting_joins_back`): the pieces joined by the separator
are the text, none of them has the separator in it, there is one piece more than occurrences,
and replacing the separator is joining the pieces by something else.
-/
import Scripting.Method

namespace Scripting

namespace Text

variable {sep text rest : List Char} {pieces : List (List Char)}

/-- The pieces of a text that is cut at the leftmost occurrence of a separator, then at the
leftmost one behind it, and so on. -/
inductive Leftmost (sep : List Char) : List Char → List (List Char) → Prop
  | whole {text : List Char} (h : ¬ sep <:+: text) : Leftmost sep text [text]
  | cut {piece rest : List Char} {pieces : List (List Char)}
      (first : ∀ i < piece.length, ¬ sep <+: (piece ++ (sep ++ rest)).drop i)
      (more : Leftmost sep rest pieces) : Leftmost sep (piece ++ (sep ++ rest)) (piece :: pieces)

theorem not_isInfix_of_not_isPrefix {piece : List Char} (hsep : sep ≠ [])
    (h : ∀ i < piece.length, ¬ sep <+: (piece ++ rest).drop i) : ¬ sep <:+: piece := by
  rintro ⟨before, after, rfl⟩
  have hpos := List.length_pos_iff.2 hsep
  refine h before.length (by simp only [List.length_append]; omega) ?_
  rw [List.append_assoc, List.append_assoc, List.drop_left]
  exact List.prefix_append _ _

namespace Leftmost

theorem ne_nil (h : Leftmost sep text pieces) : pieces ≠ [] := by
  cases h <;> exact List.cons_ne_nil _ _

theorem intercalate_eq (h : Leftmost sep text pieces) : sep.intercalate pieces = text := by
  induction h with
  | whole => simp
  | @cut piece rest pieces first more ih =>
    obtain ⟨next, others, rfl⟩ := List.exists_cons_of_ne_nil more.ne_nil
    rw [List.intercalate_cons_cons, ih, List.append_assoc]

theorem not_isInfix (h : Leftmost sep text pieces) (hsep : sep ≠ []) :
    ∀ piece ∈ pieces, ¬ sep <:+: piece := by
  induction h with
  | whole hnot => exact List.forall_mem_singleton.2 hnot
  | cut first _ ih => exact List.forall_mem_cons.2 ⟨not_isInfix_of_not_isPrefix hsep first, ih⟩

theorem length_le_of_eq {piece piece' rest rest' : List Char}
    (heq : piece ++ (sep ++ rest) = piece' ++ (sep ++ rest'))
    (first : ∀ i < piece.length, ¬ sep <+: (piece ++ (sep ++ rest)).drop i) :
    piece.length ≤ piece'.length := by
  refine Nat.le_of_not_lt fun hlt => first piece'.length hlt ?_
  rw [heq, List.drop_left]
  exact List.prefix_append _ _

/-- A text is cut at the leftmost occurrences in one way only. -/
theorem unique (h : Leftmost sep text pieces) : ∀ {pieces' : List (List Char)},
    Leftmost sep text pieces' → pieces = pieces' := by
  induction h with
  | whole hnot =>
    rintro _ (_ | @⟨piece, rest, _, _, _⟩)
    · rfl
    · exact absurd ⟨piece, rest, by rw [List.append_assoc]⟩ hnot
  | @cut piece rest pieces first more ih =>
    intro pieces' h'
    generalize htext : piece ++ (sep ++ rest) = text at h'
    cases h' with
    | whole hnot => exact absurd ⟨piece, rest, by rw [List.append_assoc, htext]⟩ hnot
    | @cut piece' rest' others first' more' =>
      have hlength : piece.length = piece'.length :=
        Nat.le_antisymm (length_le_of_eq htext first) (length_le_of_eq htext.symm first')
      obtain ⟨rfl, hrest⟩ := List.append_inj htext hlength
      obtain rfl := List.append_cancel_left hrest
      rw [ih more']

end Leftmost

/-- Cutting takes the leftmost occurrences. What has been read of the current piece has no
occurrence beginning in it. -/
theorem cut_leftmost (hsep : sep ≠ []) : ∀ (text : List Char) (skip : Nat) (piece : List Char),
    (∀ i < piece.length, ¬ sep <+: (piece.reverse ++ text.drop skip).drop i) →
    Leftmost sep (piece.reverse ++ text.drop skip) (cut sep skip piece text)
  | [], skip, piece, hpiece => by
    rw [List.drop_nil] at hpiece ⊢
    rw [cut, List.append_nil]
    rw [← List.length_reverse] at hpiece
    exact .whole (not_isInfix_of_not_isPrefix hsep hpiece)
  | _ :: rest, skip + 1, piece, hpiece => cut_leftmost hsep rest skip piece hpiece
  | c :: rest, 0, piece, hpiece => by
    rw [List.drop_zero] at hpiece ⊢
    rw [cut]
    split
    next hfound =>
      obtain ⟨behind, hbehind⟩ := List.isPrefixOf_iff_prefix.1 hfound
      have hskipped : rest.drop (sep.length - 1) = behind := by
        obtain ⟨first, others, rfl⟩ := List.exists_cons_of_ne_nil hsep
        obtain ⟨-, rfl⟩ := List.cons.inj hbehind
        exact List.drop_left
      have hmore := cut_leftmost hsep rest (sep.length - 1) [] (by simp)
      rw [List.reverse_nil, List.nil_append, hskipped] at hmore
      rw [← hbehind] at hpiece ⊢
      exact .cut (by simpa using hpiece) hmore
    next hnot =>
      have hmore := cut_leftmost hsep rest 0 (c :: piece) fun i hi => ?_
      · rwa [List.drop_zero, List.reverse_cons, List.append_assoc] at hmore
      rw [List.drop_zero, List.reverse_cons, List.append_assoc, List.singleton_append]
      rcases Nat.lt_succ_iff_lt_or_eq.1 hi with hlt | rfl
      · exact hpiece i hlt
      · rw [← List.length_reverse, List.drop_left]
        exact fun hfound => hnot (List.isPrefixOf_iff_prefix.2 hfound)

/-- Counting finds an occurrence where a cut does. -/
theorem countFrom_eq_cut (sep : List Char) : ∀ (text : List Char) (skip found : Nat)
    (piece : List Char), countFrom sep skip found text + 1 = found + (cut sep skip piece text).length
  | [], _, found, _ => by simp [countFrom, cut]
  | _ :: rest, skip + 1, found, piece => countFrom_eq_cut sep rest skip found piece
  | c :: rest, 0, found, piece => by
    rw [countFrom, cut]
    split
    · rw [countFrom_eq_cut sep rest _ (found + 1) [], List.length_cons]
      omega
    · exact countFrom_eq_cut sep rest 0 found (c :: piece)

theorem cut_ne_nil (sep : List Char) : ∀ (text : List Char) (skip : Nat) (piece : List Char),
    cut sep skip piece text ≠ []
  | [], _, _ => List.cons_ne_nil _ _
  | _ :: rest, skip + 1, piece => cut_ne_nil sep rest skip piece
  | c :: rest, 0, piece => by
    rw [cut]
    split
    · exact List.cons_ne_nil _ _
    · exact cut_ne_nil sep rest 0 (c :: piece)

/-- Replacing puts the new text where a cut is made, if it may do so as often as there are
characters left. What has been written ends with the current piece. -/
theorem substitute_eq_cut (sep new : List Char) : ∀ (text : List Char) (skip limit : Nat)
    (piece written : List Char), text.length ≤ limit →
    substitute sep new skip limit (piece ++ written) text =
      written.reverse ++ new.intercalate (cut sep skip piece text)
  | [], skip, limit, piece, written, _ => by simp [substitute, cut]
  | _ :: rest, skip + 1, limit, piece, written, hlimit =>
    substitute_eq_cut sep new rest skip limit piece written (Nat.le_of_succ_le hlimit)
  | c :: rest, 0, 0, piece, written, hlimit => absurd hlimit (Nat.not_succ_le_zero _)
  | c :: rest, 0, limit + 1, piece, written, hlimit => by
    have hrest : rest.length ≤ limit := Nat.le_of_succ_le_succ hlimit
    rw [substitute, cut]
    split
    · have hmore := substitute_eq_cut sep new rest (sep.length - 1) limit []
        (new.reverse ++ (piece ++ written)) hrest
      obtain ⟨next, others, hcut⟩ := List.exists_cons_of_ne_nil (cut_ne_nil sep rest (sep.length - 1) [])
      rw [hcut, List.nil_append] at hmore
      rw [hmore, hcut, List.intercalate_cons_cons]
      simp
    · exact substitute_eq_cut sep new rest 0 (limit + 1) (c :: piece) written
        (Nat.le_succ_of_le hrest)

variable {text sep : String}

theorem pieces_leftmost (hsep : sep ≠ "") :
    Leftmost sep.toList text.toList ((Text.pieces text sep).map String.toList) := by
  have hcut := cut_leftmost (by simpa using hsep : sep.toList ≠ []) text.toList 0 [] (by simp)
  simpa [Text.pieces, Function.comp_def] using hcut

/-- A text occurs once less than there are pieces between its occurrences. -/
theorem occurrences_eq_length (hsep : sep ≠ "") :
    occurrences text sep + 1 = (Text.pieces text sep).length := by
  have hcount := countFrom_eq_cut sep.toList text.toList 0 0 []
  rw [occurrences, if_neg (by simpa using hsep), hcount, Text.pieces, List.length_map, Nat.zero_add]

/-- Replacing a text joins its pieces by something else. -/
theorem replace_eq_intercalate (hsep : sep ≠ "") (new : String) :
    replace text sep new = String.intercalate new (Text.pieces text sep) := by
  have hall := substitute_eq_cut sep.toList new.toList text.toList 0 (text.length + 1) [] []
    (by rw [String.length_toList]; exact Nat.le_succ _)
  rw [List.nil_append, List.reverse_nil, List.nil_append] at hall
  rw [replace, replaceUpTo, if_neg (by simpa using hsep), hall, ← String.toList_inj,
    String.toList_intercalate, String.toList_ofList, Text.pieces, List.map_map]
  simp [Function.comp_def]

end Text

/-! ### The methods -/

theorem checkedCall_of_check {signature : Signature} {method : String} {args : List Value}
    {keywords : Keywords} (h : signature.check method args keywords = .ok ()) (act : Run Value) :
    checkedCall signature method args keywords act = act := by
  unfold checkedCall
  rw [h]
  rfl

theorem TextMethod.callMethod?_eq {m : TextMethod} {name : String} {args : List Value}
    {keywords : Keywords} (hname : ofText? name = some m)
    (hcheck : ∀ method, m.signature.check method args keywords = .ok ()) (s : String) :
    callMethod? (.str s) name args keywords = some (m.run s args keywords) := by
  unfold callMethod?
  dsimp only
  rw [hname, Option.map_some, checkedCall_of_check (hcheck _)]

theorem TextMethod.textItems_map (place : Nat) : ∀ items : List String,
    textItems place (items.map .str) = .ok items
  | [] => rfl
  | s :: items => by
    rw [List.map_cons, textItems, textItems_map (place + 1) items]
    rfl

theorem TextMethod.run_join {w : World} {r : ListRef} {items : List String}
    (h : w.heap.list r = (items.map Value.str).toArray) (glue : String) :
    join.run glue [.list r] .empty w = .ok (.str (String.intercalate glue items)) w := by
  have hitems : w.heap.iterate (.list r) = .ok (items.map .str) := by rw [Heap.iterate, h]
  simp only [run, List.headD_cons, Run.inspect, hitems, bind, Except.bind, textItems_map, pure,
    Except.pure]

/-- Splitting a text at a separator makes a new list of its pieces between the leftmost
occurrences. Joined by the separator they are the text, none of them has it in it, it is counted
once less than there are pieces, and replacing it is joining the pieces by what replaces it. -/
theorem splitting_joins_back (s t sep : String) (hsep : sep ≠ "") (w : World) :
    ∃ (pieces : List String) (split count replace joinBack joinOther : Run Value) (w' : World),
      callMethod? (.str s) "split" [.str sep] .empty = some split ∧
      callMethod? (.str s) "count" [.str sep] .empty = some count ∧
      callMethod? (.str s) "replace" [.str sep, .str t] .empty = some replace ∧
      callMethod? (.str sep) "join" [.list w.nextList] .empty = some joinBack ∧
      callMethod? (.str t) "join" [.list w.nextList] .empty = some joinOther ∧
      Text.Leftmost sep.toList s.toList (pieces.map String.toList) ∧
      split w = .ok (.list w.nextList) w' ∧
      w'.heap.list w.nextList = (pieces.map Value.str).toArray ∧
      joinBack w' = .ok (.str s) w' ∧
      (∀ piece ∈ pieces, ¬ sep.toList <:+: piece.toList) ∧
      (∃ n : Nat, count w = .ok (.ofNat n) w ∧ pieces.length = n + 1) ∧
      ∃ replaced, replace w = .ok (.str replaced) w ∧ joinOther w' = .ok (.str replaced) w' := by
  have hleft : Text.Leftmost sep.toList s.toList ((Text.pieces s sep).map String.toList) :=
    Text.pieces_leftmost hsep
  have hempty : ¬ sep.isEmpty := by simpa using hsep
  have hlist : (w.withList ((Text.pieces s sep).map Value.str).toArray).heap.list w.nextList =
      ((Text.pieces s sep).map Value.str).toArray := by
    rw [World.list_withList, if_pos rfl]
  refine ⟨Text.pieces s sep, _, _, _, _, _, w.withList ((Text.pieces s sep).map Value.str).toArray,
    TextMethod.callMethod?_eq rfl (fun _ => rfl) s, TextMethod.callMethod?_eq rfl (fun _ => rfl) s,
    TextMethod.callMethod?_eq rfl (fun _ => rfl) s, TextMethod.callMethod?_eq rfl (fun _ => rfl) sep,
    TextMethod.callMethod?_eq rfl (fun _ => rfl) t, hleft, ?_, hlist, ?_, fun piece hpiece => ?_,
    ⟨Text.occurrences s sep, rfl, (Text.occurrences_eq_length hsep).symm⟩, _, ?_,
    TextMethod.run_join hlist t⟩
  · have hpieces : TextMethod.splitPieces s (some (.str sep)) = .ok (Text.pieces s sep) := by
      simp only [TextMethod.splitPieces, Value.asStr]
      rw [if_neg hempty]
    simp only [TextMethod.run, List.head?_cons, hpieces]
    rfl
  · have hback : String.intercalate sep (Text.pieces s sep) = s := by
      rw [← String.toList_inj, String.toList_intercalate, hleft.intercalate_eq]
    rw [TextMethod.run_join hlist, hback]
  · exact hleft.not_isInfix (by simpa using hsep) _ (List.mem_map_of_mem hpiece)
  · rw [← Text.replace_eq_intercalate hsep]
    rfl

/-- A separator that overlaps itself: `aa` is found twice in `aaaaa`, from the left. -/
theorem splitting_joins_back_overlapping :
    "aa" ≠ "" ∧ ∀ w : World, ∃ (replace joinOther : Run Value) (w' : World),
      callMethod? (.str "aaaaa") "replace" [.str "aa", .str "é"] .empty = some replace ∧
      callMethod? (.str "é") "join" [.list w.nextList] .empty = some joinOther ∧
      w'.heap.list w.nextList = #[.str "", .str "", .str "a"] ∧
      replace w = .ok (.str "ééa") w ∧ joinOther w' = .ok (.str "ééa") w' := by
  have hsep : "aa" ≠ "" := by decide
  refine ⟨hsep, fun w => ?_⟩
  obtain ⟨pieces, _, _, replace, _, joinOther, w', -, -, hreplace, -, hjoin, hleft, -, hlist, -, -, -,
    replaced, hreplaced, hjoined⟩ := splitting_joins_back "aaaaa" "é" "aa" hsep w
  have hpieces : pieces = ["", "", "a"] := by
    have hmap := hleft.unique (Text.pieces_leftmost hsep)
    exact (List.map_inj_right fun _ _ h => String.toList_inj.1 h).1 hmap
  have hjoin' := hjoin
  rw [TextMethod.callMethod?_eq rfl (fun _ => rfl)] at hjoin'
  obtain rfl := Option.some.inj hjoin'
  rw [hpieces] at hlist
  obtain ⟨hvalue, -⟩ := Outcome.ok.inj ((TextMethod.run_join hlist "é").symm.trans hjoined)
  obtain rfl := Value.str.inj hvalue
  exact ⟨replace, _, w', hreplace, hjoin, hlist, hreplaced, hjoined⟩

end Scripting
