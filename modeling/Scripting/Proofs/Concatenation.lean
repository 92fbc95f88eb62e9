/-
# Programs one behind the other

Two sources that are programs, with a newline between them, are a program: the statements of the
first, and behind them those of the second, as many lines further down as the first source takes
(`parse_append`).

A source that is a program leaves no bracket open (`Grammar.Spells.whole`), and so its last line
ends where the newline comes. Its open blocks are closed by the second source, whose first line is
not indented. And no word that goes on with a statement comes there, for no program begins with
one (`Grammar.Spells.front`). So the tokens of the first source come to a seam (`Joined.seam`).
-/
import Scripting.Proofs.Grammar.Program
import Scripting.Proofs.Token.Seam

namespace Scripting

theorem parse_eq_ok_iff {source : String} {p : Program} :
    parse source = .ok p ↔ ∃ ts, tokenizeAt .start source.toList = .ok ts ∧
      Grammar.program ts = .ok p := by
  unfold parse tokenize
  cases h : tokenizeAt .start source.toList with
  | ok ts => exact ⟨fun hp => ⟨ts, rfl, hp⟩, fun ⟨_, hts, hp⟩ => by cases hts; exact hp⟩
  | error d => exact ⟨nofun, nofun⟩

theorem Grammar.Spells.map_down_zero {b n : Nat} {body : List Token} {pos : Position}
    {p : List Stmt} (h : Spells b (body ++ [⟨.eof, pos⟩]) p n) (hbody : ∀ t ∈ body, t.kind ≠ .eof) :
    p.map (Stmt.down 0) = p := by
  obtain ⟨-, -, i, -, hi⟩ := h.whole hbody (Nat.le_refl b) 0
  rw [show Token.down 0 = id from rfl, List.map_id] at hi
  exact hi.unique h

theorem Grammar.bound_map_down (k : Nat) (ts : List Token) :
    bound (ts.map (Token.down k)) = bound ts := by
  unfold bound
  rw [List.foldl_map]
  rfl

namespace Joined

variable {k extra newlines : Nat} {ts tail all : List Token}

theorem length_eq (h : Joined k tail extra newlines ts all) :
    all.length + 1 = ts.length + extra + newlines + tail.length := by
  cases h
  simp only [List.length_append, List.length_replicate, List.length_map, List.length_singleton]
  omega

theorem bound_le (h : Joined k tail extra newlines ts all) (hne : tail ≠ []) :
    Grammar.bound ts + extra ≤ Grammar.bound all ∧ Grammar.bound tail ≤ Grammar.bound all := by
  obtain ⟨lines, blocks, p, q, r, u, v⟩ := h
  have hts := Grammar.bound_append (List.replicate blocks ⟨.dedent, p⟩ ++ [⟨.eof, q⟩]) lines
  have hall := Grammar.bound_append (List.replicate extra ⟨.newline, r⟩ ++
    (List.replicate blocks ⟨.dedent, u⟩ ++ (List.replicate newlines ⟨.newline, v⟩ ++
      tail.map (Token.down k)))) lines
  have heof : Grammar.bound [⟨.eof, q⟩] = 128 := rfl
  rw [Grammar.bound_replicate_append rfl, heof] at hts
  rw [Grammar.bound_replicate_append rfl, Grammar.bound_replicate_append rfl,
    Grammar.bound_replicate_append rfl, Grammar.bound_map_down] at hall
  have hlines := Grammar.le_bound lines
  have htail := Grammar.le_bound tail
  have hpos := List.length_pos_iff.2 hne
  omega

theorem seam (h : Joined k tail extra newlines ts all) (hne : tail ≠ [])
    (hclean : (Token.front tail).kind.continuesStmt = false) : ∃ (s : Seam) (v : Position),
    s.extra = extra ∧ s.tail = List.replicate newlines ⟨.newline, v⟩ ++ tail.map (Token.down k) ∧
      Abreast 0 0 ⟨0, some s, False⟩ false 0 0 ts all := by
  obtain ⟨lines, blocks, p, q, r, u, v, hkind, hline, hlevel, hdepth⟩ := h
  have hclean' : (Token.front (List.replicate newlines ⟨.newline, v⟩ ++
      tail.map (Token.down k))).kind.continuesStmt = false := by
    cases newlines with
    | succ => rfl
    | zero =>
      cases tail with
      | nil => exact absurd rfl hne
      | cons t tail => exact hclean
  have hinLine : lines.foldl (fun _ t => t.kind.isSolid) false = false := by
    rcases hline with rfl | ⟨before, p, rfl⟩
    · rfl
    · rw [List.foldl_append]
      rfl
  obtain ⟨s, hs, rfl⟩ : ∃ s : Seam, s.tail = List.replicate newlines ⟨.newline, v⟩ ++
      tail.map (Token.down k) ∧ s.extra = extra := ⟨⟨_, extra, by simp [hne], hclean'⟩, rfl, rfl⟩
  refine ⟨s, v, rfl, hs, .append_zero hkind False.elim ?_⟩
  rw [hinLine, hlevel, hdepth, ← hs]
  exact .seam rfl (Nat.le_refl s.extra) p q r u

theorem spells {n m : Nat} {body : List Token} {pos : Position} {p q : List Stmt}
    (h : Joined k (body ++ [⟨.eof, pos⟩]) extra newlines ts all)
    (hbody : ∀ t ∈ body, t.kind ≠ .eof) (hp : Grammar.Spells (Grammar.bound ts) ts p n)
    (hq : Grammar.Spells (Grammar.bound (body ++ [⟨.eof, pos⟩])) (body ++ [⟨.eof, pos⟩]) q m) :
    ∃ i ≤ all.length,
      Grammar.Spells (Grammar.bound all) all (p.map (Stmt.down 0) ++ q.map (Stmt.down k)) i := by
  have hne : body ++ [⟨.eof, pos⟩] ≠ [] := by simp
  obtain ⟨hbound, hbound'⟩ := h.bound_le hne
  obtain ⟨s, v, rfl, hs, hR⟩ := h.seam hne hq.front.1
  obtain ⟨-, hm, i, hi, hq'⟩ := hq.whole hbody hbound' k
  have htail := hq'.newlines (by simp) v newlines
  rw [← hs] at htail
  obtain ⟨hn, j, hj, hwhole⟩ := hp.seam hR rfl hbound htail
  have hlength := h.length_eq
  rw [List.length_append, List.length_singleton] at hlength
  exact ⟨j, by omega, hwhole⟩

end Joined

/-- Parsing goes piece by piece: two programs with a newline between them are the
statements of the first and those of the second, so many lines further down. -/
theorem parse_append {a b : String} {p q : Program} (ha : parse a = .ok p) (hb : parse b = .ok q) :
    parse (a ++ "\n" ++ b) = .ok (p ++ q.map (Stmt.down (a.toList.count '\n' + 1))) := by
  obtain ⟨ts, hts, hp⟩ := parse_eq_ok_iff.1 ha
  obtain ⟨tail, htail, hq⟩ := parse_eq_ok_iff.1 hb
  obtain ⟨n, -, hp⟩ := Grammar.program_eq_ok_iff.1 hp
  obtain ⟨m, -, hq⟩ := Grammar.program_eq_ok_iff.1 hq
  obtain ⟨body, pos, rfl, hbody⟩ := tokenizeAt_eof hts
  obtain ⟨body', pos', rfl, hbody'⟩ := tokenizeAt_eof htail
  obtain ⟨hdepth, -⟩ := hp.whole hbody (Nat.le_refl _) 0
  obtain ⟨all, extra, newlines, hall, hjoined⟩ := tokenizeAt_append hts htail
    (by rw [List.foldl_append, hdepth]; rfl) hq.front.2
  obtain ⟨i, hi, hwhole⟩ := hjoined.spells hbody' hp hq
  rw [hp.map_down_zero hbody] at hwhole
  refine parse_eq_ok_iff.2 ⟨all, ?_, Grammar.program_eq_ok_iff.2 ⟨i, hi, hwhole⟩⟩
  rw [String.toList_append, String.toList_append, List.append_assoc]
  exact hall

theorem exists_of_length_parse {source : String} {n : Nat}
    (h : (parse source).toOption.map List.length = some n) :
    ∃ p, parse source = .ok p ∧ p.length = n := by
  cases hp : parse source with
  | ok p =>
    rw [hp] at h
    exact ⟨p, rfl, Option.some.inj h⟩
  | error d => rw [hp] at h; cases h

/-- The first source ends within a block, behind brackets over two lines and a comment.
The second begins with a comment and an empty line. -/
theorem parse_append_open_block : ∃ p q : Program, p.length = 1 ∧ q.length = 2 ∧
    parse "if x:\n    y = (1,\n2) # c" = .ok p ∧ parse "# d\n\nz = f'\x7by\x7d'\nz" = .ok q ∧
    parse ("if x:\n    y = (1,\n2) # c" ++ "\n" ++ "# d\n\nz = f'\x7by\x7d'\nz") =
      .ok (p ++ q.map (Stmt.down 3)) := by
  have hfirst : (parse "if x:\n    y = (1,\n2) # c").toOption.map List.length = some 1 := by
    decide +kernel
  have hsecond : (parse "# d\n\nz = f'\x7by\x7d'\nz").toOption.map List.length = some 2 := by
    decide +kernel
  obtain ⟨p, hp, hlength⟩ := exists_of_length_parse hfirst
  obtain ⟨q, hq, hlength'⟩ := exists_of_length_parse hsecond
  exact ⟨p, q, hlength, hlength', hp, hq, parse_append hp hq⟩

end Scripting
