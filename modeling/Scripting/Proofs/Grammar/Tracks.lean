/-
# Two readings side by side

The same text can stand in front of other texts, and further down in a text. `Abreast` relates the
tokens of a text that ends to those of the text that goes on: they are the same, as many lines
further down, up to the place where the first one ends (`Seam`). There the open blocks are closed
in both, perhaps behind an extra newline in the second. Before the seam the line ends, so a reader
within a line cannot tell the two apart.

A reader tracks another one if, whenever the second succeeds on the tokens that end, the first one
succeeds on those that go on, with the same result further down, and what is left is side by side
again (`Tracks`). It is also said of what sort the result is, how much is left of the tokens, and
how large a bound keeps the reader from giving up. Only where readings are followed strictly does
a failure say that the other reader fails.

Along the tokens goes the number of open blocks and of open brackets. No token lies above the line
`low` where the text begins, and so nothing that is read does.
-/
import Scripting.Proofs.Grammar.Demand
import Scripting.Proofs.Token.Down

namespace Scripting

namespace Token.Kind

/-- The words that go on with a statement that might have ended. -/
def continuesStmt : Token.Kind → Bool
  | .word .elif_ | .word .else_ | .word .except_ | .word .finally_ => true
  | _ => false

end Token.Kind

/-- The place where the tokens of a text end and other tokens go on, perhaps behind some
more newlines. -/
structure Seam where
  tail : List Token
  extra : Nat
  nonempty : tail ≠ []
  clean : (Token.front tail).kind.continuesStmt = false

/-- How the tokens of a text end: with so many brackets open, and with a seam if other
tokens go on there. It may be known that they end blocks only where one is open. -/
structure Ending where
  depth : Nat
  seam : Option Seam
  leveled : Prop

namespace Ending

/-- The newlines that may come before the tokens that go on. -/
def extra (ending : Ending) : Nat := ending.seam.elim 0 Seam.extra

/-- A token within a text, where so many blocks are open. -/
def Allows (ending : Ending) (level : Nat) (kind : Token.Kind) : Prop :=
  kind ≠ .eof ∧ (ending.leveled → kind = .dedent → 0 < level)

end Ending

/-- Tokens that end blocks only where one is open, of so many at first. -/
def Leveled : Nat → List Token → Prop
  | _, [] => True
  | level, t :: ts => (t.kind = .dedent → 0 < level) ∧ Leveled (t.kind.levelBehind level) ts

/-- The tokens of a text that ends and those of a text that stands further down and may
go on. Within a line there is no seam. -/
inductive Abreast (k low : Nat) (ending : Ending) :
    (inLine : Bool) → (level depth : Nat) → List Token → List Token → Prop
  | token {inLine : Bool} {level depth : Nat} {t : Token} {ts ts' : List Token}
      (hkind : ending.Allows level t.kind) (hline : low ≤ t.pos.line)
      (rest : Abreast k low ending t.kind.isSolid (t.kind.levelBehind level)
        (t.kind.depthBehind depth) ts ts') :
      Abreast k low ending inLine level depth (t :: ts) (t.down k :: ts')
  | eof {inLine : Bool} {level : Nat} (hseam : ending.seam = none) (p : Position)
      (hline : low ≤ p.line) :
      Abreast k low ending inLine level ending.depth [⟨.eof, p⟩] [⟨.eof, p.down k⟩]
  | seam {level extra : Nat} {s : Seam} (hseam : ending.seam = some s) (hextra : extra ≤ s.extra)
      (p q r u : Position) :
      Abreast k low ending false level ending.depth
        (List.replicate level ⟨.dedent, p⟩ ++ [⟨.eof, q⟩])
        (List.replicate extra ⟨.newline, r⟩ ++ (List.replicate level ⟨.dedent, u⟩ ++ s.tail))

namespace Abreast

variable {k low : Nat} {ending : Ending} {inLine : Bool} {level depth : Nat} {ts ts' : List Token}

theorem ne_nil (h : Abreast k low ending inLine level depth ts ts') : ts ≠ [] ∧ ts' ≠ [] := by
  cases h with
  | token => simp
  | eof => simp
  | @seam _ _ s => simp [s.nonempty]

theorem inLine_of_not_seam (h : Abreast k low ending inLine level depth ts ts')
    (hseam : ending.seam = none) : Abreast k low ending true level depth ts ts' := by
  cases h with
  | token hkind hline rest => exact .token hkind hline rest
  | eof hnone p hline => exact .eof hnone p hline
  | seam hseam' => rw [hseam] at hseam'; cases hseam'

/-- What holds of tokens within a line holds of tokens anywhere. -/
theorem anywhere (h : Abreast k low ending true level depth ts ts') :
    Abreast k low ending inLine level depth ts ts' := by
  cases h with
  | token hkind hline rest => exact .token hkind hline rest
  | eof hnone p hline => exact .eof hnone p hline

theorem front_eq (h : Abreast k low ending true level depth ts ts') :
    Token.front ts' = (Token.front ts).down k := by
  cases h with
  | token => rfl
  | eof => rfl

theorem line_le (h : Abreast k low ending true level depth ts ts') :
    low ≤ (Token.front ts).pos.line := by
  cases h with
  | token _ hline => exact hline
  | eof _ _ hline => exact hline

theorem behind_of_ne_eof (h : Abreast k low ending true level depth ts ts')
    (hfront : (Token.front ts).kind ≠ .eof) :
    Abreast k low ending (Token.front ts).kind.isSolid ((Token.front ts).kind.levelBehind level)
      ((Token.front ts).kind.depthBehind depth) (Token.behind ts) (Token.behind ts') := by
  cases h with
  | @token _ _ _ t ts ts' hkind hline rest =>
    obtain ⟨hts, hts'⟩ := rest.ne_nil
    rw [Token.behind_cons hts, Token.behind_cons hts']
    exact rest
  | eof => exact absurd rfl hfront

theorem leaves (h : Abreast k low ending true level depth ts ts')
    (hfront : (Token.front ts).kind ≠ .eof) :
    Leaves (Token.front ts).demand ts (Token.behind ts) := by
  cases h with
  | token _ _ rest =>
    rw [Token.behind_cons rest.ne_nil.1]
    exact .cons rest.ne_nil.1
  | eof => exact absurd rfl hfront

theorem leaves_of_isSolid (h : Abreast k low ending true level depth ts ts')
    (hfront : (Token.front ts).kind.isSolid = true) : Leaves 32 ts (Token.behind ts) :=
  (h.leaves fun heof => by rw [heof] at hfront; cases hfront).mono (Token.le_demand hfront)

/-- Behind a token within a line the line goes on. -/
theorem behind (h : Abreast k low ending true level depth ts ts')
    (hfront : (Token.front ts).kind.isSolid = true) :
    Abreast k low ending true level ((Token.front ts).kind.depthBehind depth) (Token.behind ts)
      (Token.behind ts') := by
  have hbehind := h.behind_of_ne_eof fun heof => by rw [heof] at hfront; cases hfront
  rwa [hfront, Token.Kind.levelBehind_of_isSolid hfront] at hbehind

theorem append : ∀ {body : List Token} {inLine : Bool} {level depth : Nat},
    (∀ t ∈ body, t.kind ≠ .eof) → (ending.leveled → Leveled level body) →
    (∀ t ∈ body, low ≤ t.pos.line) →
    Abreast k low ending (body.foldl (fun _ t => t.kind.isSolid) inLine)
      (body.foldl (fun level t => t.kind.levelBehind level) level)
      (body.foldl (fun depth t => t.kind.depthBehind depth) depth) ts ts' →
    Abreast k low ending inLine level depth (body ++ ts) (body.map (Token.down k) ++ ts')
  | [], _, _, _, _, _, _, h => h
  | _ :: _, _, _, _, hkind, hlevel, hline, h => by
    rw [List.forall_mem_cons] at hkind hline
    exact .token ⟨hkind.1, fun h => (hlevel h).1⟩ hline.1
      (append hkind.2 (fun h => (hlevel h).2) hline.2 h)

theorem append_zero {body : List Token} (hkind : ∀ t ∈ body, t.kind ≠ .eof)
    (hlevel : ending.leveled → Leveled level body)
    (h : Abreast 0 0 ending (body.foldl (fun _ t => t.kind.isSolid) inLine)
      (body.foldl (fun level t => t.kind.levelBehind level) level)
      (body.foldl (fun depth t => t.kind.depthBehind depth) depth) ts ts') :
    Abreast 0 0 ending inLine level depth (body ++ ts) (body ++ ts') := by
  have happend := append hkind hlevel (fun _ _ => Nat.zero_le _) h
  rwa [show Token.down 0 = id from rfl, List.map_id] at happend

theorem whole (k : Nat) (body : List Token) (p : Position) (inLine : Bool) (level depth : Nat)
    {leveled : Prop} (hlevel : leveled → Leveled level body) (hkind : ∀ t ∈ body, t.kind ≠ .eof)
    (hline : ∀ t ∈ body ++ [(⟨.eof, p⟩ : Token)], low ≤ t.pos.line) :
    Abreast k low ⟨body.foldl (fun depth t => t.kind.depthBehind depth) depth, none, leveled⟩ inLine
      level depth (body ++ [⟨.eof, p⟩]) ((body ++ [(⟨.eof, p⟩ : Token)]).map (Token.down k)) := by
  rw [List.forall_mem_append, List.forall_mem_singleton] at hline
  rw [List.map_append]
  exact append hkind hlevel hline.1 (.eof rfl p hline.2)

end Abreast

/-! ### Readers side by side -/

/-- How the readings of some tokens and of those beside them end. One that succeeds gives a
result of the sort `Q` and leaves less by its cost, and the other one gives the result that
it is changed to. One that fails comes to a place in its tokens, and if readings are followed
strictly the other one fails. One that gives up has a bound that is less than what the tokens
demand and what the reader needs besides. -/
inductive ReadAlike {α : Type} (strict : Prop) (b need cost : Nat)
    (R' : List Token → List Token → Prop) (f : α → α) (Q : α → Prop) (ts : List Token) :
    Parsed α → Parsed α → Prop
  | ok {v : α} {rest rest' : List Token} (hv : Q v) (hrest : Leaves cost ts rest)
      (h : R' rest rest') : ReadAlike strict b need cost R' f Q ts (.ok v rest) (.ok (f v) rest')
  | error {d : Diagnostic} {rest : List Token} {found' : Parsed α} (hrest : Leaves 0 ts rest)
      (h : strict → ∃ d' rest', found' = .error d' rest') :
      ReadAlike strict b need cost R' f Q ts (.error d rest) found'
  | exhausted {found' : Parsed α} (h : b < demands Token.demand ts + need) :
      ReadAlike strict b need cost R' f Q ts .exhausted found'

/-- Two readers whose readings end alike on tokens side by side. -/
structure Tracks {α : Type} (strict : Prop) (b need cost : Nat)
    (R R' : List Token → List Token → Prop) (f : α → α) (Q : α → Prop) (p p' : Parse α) : Prop where
  run : ∀ {ts ts' : List Token}, R ts ts' → ReadAlike strict b need cost R' f Q ts (p ts) (p' ts')

def Complains {α : Type} (p : Parse α) : Prop := ∀ ts, ∃ d, p ts = .error d ts

section

variable {α : Type} {strict : Prop} {b need cost first : Nat} {R' : List Token → List Token → Prop}
  {f : α → α} {Q : α → Prop} {ts mid : List Token} {found found' : Parsed α}

theorem ReadAlike.after
    (h : ReadAlike strict b (need + first) (cost - first) R' f Q mid found found')
    (hmid : Leaves first ts mid) : ReadAlike strict b need cost R' f Q ts found found' := by
  cases h with
  | ok hv hrest h => exact .ok hv (hmid.trans hrest) h
  | error hrest h => exact .error ((hmid.mono (Nat.zero_le _)).trans hrest) h
  | exhausted h =>
    have hless := hmid.less
    exact .exhausted (by omega)

end

namespace Tracks

open Parse

variable {α β : Type} {strict : Prop} {b b₁ need need₁ cost first : Nat}
  {R R₁ R' : List Token → List Token → Prop} {f : α → α} {g : β → β} {Q : α → Prop} {Q' : β → Prop}

theorem ok {p p' : Parse α} (h : Tracks strict b need cost R R' f Q p p') {ts ts' rest : List Token}
    {v : α} (hR : R ts ts') (hp : p ts = .ok v rest) :
    Q v ∧ Leaves cost ts rest ∧ ∃ rest', p' ts' = .ok (f v) rest' ∧ R' rest rest' := by
  have halike := h.run hR
  rw [hp] at halike
  generalize p' ts' = found' at halike
  cases halike with
  | ok hv hrest h => exact ⟨hv, hrest, _, rfl, h⟩

theorem fails {p p' : Parse α} (h : Complains p) (h' : strict → Complains p') :
    Tracks strict b need cost R R' f Q p p' := by
  refine ⟨fun {ts ts'} _ => ?_⟩
  obtain ⟨d, hd⟩ := h ts
  rw [hd]
  refine .error (.refl ts) fun hstrict => ?_
  obtain ⟨d', hd'⟩ := h' hstrict ts'
  exact ⟨d', ts', hd'⟩

theorem exhausted (h : b < need) {p' : Parse α} :
    Tracks strict b need cost R R' f Q Parse.exhausted p' := ⟨fun _ => .exhausted (by omega)⟩

theorem failAt {pos pos' : Position} {complaint complaint' : Complaint} :
    Tracks strict b need cost R R' f Q (Parse.failAt pos complaint)
      (Parse.failAt pos' complaint') :=
  fails (fun _ => ⟨_, rfl⟩) fun _ _ => ⟨_, rfl⟩

theorem failHere {complaint complaint' : Complaint} :
    Tracks strict b need cost R R' f Q (Parse.failHere complaint) (Parse.failHere complaint') :=
  fails (fun _ => ⟨_, rfl⟩) fun _ _ => ⟨_, rfl⟩

theorem unexpected {wanted : Expectation} :
    Tracks strict b need cost R R' f Q (Parse.unexpected wanted) (Parse.unexpected wanted) :=
  fails (fun _ => ⟨_, rfl⟩) fun _ _ => ⟨_, rfl⟩

theorem pure {v v' : α} (h : v' = f v) (hv : Q v) :
    Tracks strict b need 0 R R f Q (Pure.pure v) (Pure.pure v') := by
  subst h
  exact ⟨fun hR => .ok hv (.refl _) hR⟩

/-- One reader after another. The second need track only for what the first can give. -/
theorem bind {p p' : Parse α} {next next' : α → Parse β}
    (hp : Tracks strict b need first R R₁ f Q p p')
    (hn : ∀ v, Q v → Tracks strict b (need + first) (cost - first) R₁ R' g Q' (next v)
      (next' (f v))) :
    Tracks strict b need cost R R' g Q' (p >>= next) (p' >>= next') := by
  refine ⟨fun {ts ts'} hR => ?_⟩
  change ReadAlike strict b need cost R' g Q' ts (Parse.bind p next ts) (Parse.bind p' next' ts')
  unfold Parse.bind
  have halike := hp.run hR
  generalize p ts = found at halike
  generalize p' ts' = found' at halike
  cases halike with
  | ok hv hmid hR₁ => exact ((hn _ hv).run hR₁).after hmid
  | error hrest h =>
    refine .error hrest fun hstrict => ?_
    obtain ⟨d', rest', rfl⟩ := h hstrict
    exact ⟨d', rest', rfl⟩
  | exhausted h => exact .exhausted h

theorem ite {c : Prop} [Decidable c] {p p' q q' : Parse α}
    (hp : c → Tracks strict b need cost R R' f Q p p')
    (hq : ¬ c → Tracks strict b need cost R R' f Q q q') :
    Tracks strict b need cost R R' f Q (if c then p else q) (if c then p' else q') := by
  split
  next h => exact hp h
  next h => exact hq h

theorem mono {p p' : Parse α} (hp : Tracks strict b need cost R₁ R' f Q p p')
    (h : ∀ {ts ts'}, R ts ts' → R₁ ts ts') : Tracks strict b need cost R R' f Q p p' :=
  ⟨fun hR => hp.run (h hR)⟩

theorem weaken {p p' : Parse α} (hp : Tracks strict b need cost R R₁ f Q p p')
    (hle : b₁ + need ≤ b + need₁) (h : ∀ {ts ts'}, R₁ ts ts' → R' ts ts') :
    Tracks strict b₁ need₁ cost R R' f Q p p' := by
  refine ⟨fun {ts ts'} hR => ?_⟩
  have halike := hp.run hR
  generalize p ts = found at halike ⊢
  generalize p' ts' = found' at halike ⊢
  cases halike with
  | ok hv hrest hR₁ => exact .ok hv hrest (h hR₁)
  | error hrest h => exact .error hrest h
  | exhausted h => exact .exhausted (by omega)

theorem room {p p' : Parse α} (hp : Tracks strict b need cost R R' f Q p p')
    (hle : b₁ + need ≤ b + need₁) : Tracks strict b₁ need₁ cost R R' f Q p p' :=
  hp.weaken hle id

theorem within {inner inner' : List Token} {p p' : Parse α} (h : R₁ inner inner')
    (hp : Tracks strict b need₁ cost R₁ R' f Q p p')
    (hle : demands Token.demand inner + need₁ ≤ need) :
    Tracks strict b need 0 R R f Q (Parse.within inner p) (Parse.within inner' p') := by
  refine ⟨fun {ts ts'} hR => ?_⟩
  unfold Parse.within
  have halike := hp.run h
  generalize p inner = found at halike
  generalize p' inner' = found' at halike
  cases halike with
  | ok hv _ _ => exact .ok hv (.refl ts) hR
  | error _ h =>
    refine .error (.refl ts) fun hstrict => ?_
    obtain ⟨d', rest', rfl⟩ := h hstrict
    exact ⟨d', ts', rfl⟩
  | exhausted h => exact .exhausted (by omega)

theorem accept_of {kind : Token.Kind} {p p' q q' : Parse α}
    (hsame : ∀ {ts ts'}, R ts ts' →
      (Token.front ts').kind.same kind = (Token.front ts).kind.same kind)
    (hbehind : ∀ {ts ts'}, R ts ts' → (Token.front ts).kind = kind →
      Leaves first ts (Token.behind ts) ∧ R₁ (Token.behind ts) (Token.behind ts'))
    (hp : Tracks strict b (need + first) (cost - first) R₁ R' f Q p p')
    (hq : Tracks strict b need cost R R' f Q q q') :
    Tracks strict b need cost R R' f Q (accept kind >>= fun found => if found = true then p else q)
      (accept kind >>= fun found => if found = true then p' else q') := by
  refine ⟨fun {ts ts'} hR => ?_⟩
  have hsame' := hsame hR
  cases hfound : (Token.front ts).kind.same kind with
  | true =>
    rw [hfound] at hsame'
    rw [bind_accept_of_same hfound, if_pos rfl, bind_accept_of_same hsame', if_pos rfl]
    obtain ⟨hleaves, hR₁⟩ := hbehind hR (Token.Kind.eq_of_same hfound)
    exact (hp.run hR₁).after hleaves
  | false =>
    rw [hfound] at hsame'
    rw [bind_accept_of_not_same hfound, if_neg Bool.false_ne_true, bind_accept_of_not_same hsame',
      if_neg Bool.false_ne_true]
    exact hq.run hR

section InLine

variable {k low : Nat} {ending : Ending} {level depth : Nat} {kind : Token.Kind}

theorem check (kind : Token.Kind) : Tracks strict b need 0 (Abreast k low ending true level depth)
    (Abreast k low ending true level depth) id (fun _ => True) (Parse.check kind)
    (Parse.check kind) := by
  refine ⟨fun {ts ts'} hR => ?_⟩
  unfold Parse.check
  rw [hR.front_eq]
  exact .ok trivial (.refl ts) hR

theorem here : Tracks strict b need 0 (Abreast k low ending true level depth)
    (Abreast k low ending true level depth) (Position.down k) (low ≤ ·.line) Parse.here
    Parse.here := by
  refine ⟨fun {ts ts'} hR => ?_⟩
  unfold Parse.here
  rw [hR.front_eq]
  exact .ok hR.line_le (.refl ts) hR

theorem expect (hkind : kind.isSolid = true) :
    Tracks strict b need 32 (Abreast k low ending true level depth)
      (Abreast k low ending true level (kind.depthBehind depth)) id (fun _ => True)
      (Parse.expect kind) (Parse.expect kind) := by
  refine ⟨fun {ts ts'} hR => ?_⟩
  unfold Parse.expect
  dsimp only
  rw [hR.front_eq, Token.kind_down]
  split
  next hsame =>
    have hfront := Token.Kind.eq_of_same hsame
    have hsolid : (Token.front ts).kind.isSolid = true := by rw [hfront, hkind]
    have hbehind := hR.behind hsolid
    rw [hfront] at hbehind
    exact .ok trivial (hR.leaves_of_isSolid hsolid) hbehind
  · exact .error (.refl ts) fun _ => ⟨_, _, rfl⟩

theorem expectName : Tracks strict b need 32 (Abreast k low ending true level depth)
    (Abreast k low ending true level depth) id (fun _ => True) Parse.expectName
    Parse.expectName := by
  refine ⟨fun {ts ts'} hR => ?_⟩
  unfold Parse.expectName
  rw [hR.front_eq, Token.kind_down]
  split
  next name hname =>
    have hsolid : (Token.front ts).kind.isSolid = true := by rw [hname]; rfl
    have hbehind := hR.behind hsolid
    rw [hname] at hbehind
    exact .ok trivial (hR.leaves_of_isSolid hsolid) hbehind
  · exact .error (.refl ts) fun _ => ⟨_, _, rfl⟩

theorem accept (hkind : kind.isSolid = true) {p p' q q' : Parse α}
    (hp : Tracks strict b (need + 32) (cost - 32)
      (Abreast k low ending true level (kind.depthBehind depth)) R' f Q p p')
    (hq : Tracks strict b need cost (Abreast k low ending true level depth) R' f Q q q') :
    Tracks strict b need cost (Abreast k low ending true level depth) R' f Q
      (Parse.accept kind >>= fun found => if found = true then p else q)
      (Parse.accept kind >>= fun found => if found = true then p' else q') := by
  refine accept_of (fun hR => ?_) (fun {ts ts'} hR hfront => ?_) hp hq
  · rw [hR.front_eq, Token.kind_down]
  have hsolid : (Token.front ts).kind.isSolid = true := by rw [hfront, hkind]
  have hbehind := hR.behind hsolid
  rw [hfront] at hbehind
  exact ⟨hR.leaves_of_isSolid hsolid, hbehind⟩

/-- Tokens side by side whose first one is known. -/
def At (R : List Token → List Token → Prop) (t : Token) (ts ts' : List Token) : Prop :=
  R ts ts' ∧ Token.front ts = t

theorem peek {next next' : Token → Parse β}
    (h : ∀ t, low ≤ t.pos.line → Tracks strict b need cost
      (At (Abreast k low ending true level depth) t) R' g Q' (next t) (next' (t.down k))) :
    Tracks strict b need cost (Abreast k low ending true level depth) R' g Q' (Parse.peek >>= next)
      (Parse.peek >>= next') := by
  refine ⟨fun {ts ts'} hR => ?_⟩
  rw [bind_peek, bind_peek, hR.front_eq]
  exact (h (Token.front ts) hR.line_le).run ⟨hR, rfl⟩

/-- A token within the line is taken that was looked at. It pays for what it demands. -/
theorem takeAs {t : Token} (hkind : t.kind = kind) (hsolid : kind.isSolid = true)
    (hfirst : first ≤ t.demand) {p p' : Parse α}
    (h : Tracks strict b (need + first) (cost - first)
      (Abreast k low ending true level (kind.depthBehind depth)) R' f Q p p') :
    Tracks strict b need cost (At (Abreast k low ending true level depth) t) R' f Q
      (Parse.advance >>= fun _ => p) (Parse.advance >>= fun _ => p') := by
  refine ⟨fun {ts ts'} ⟨hR, hfront⟩ => ?_⟩
  have hfrontSolid : (Token.front ts).kind.isSolid = true := by rw [hfront, hkind, hsolid]
  have hbehind := hR.behind hfrontSolid
  have hleaves := hR.leaves fun heof => by rw [heof] at hfrontSolid; cases hfrontSolid
  rw [hfront] at hbehind hleaves
  rw [hkind] at hbehind
  exact (h.run hbehind).after (hleaves.mono hfirst)

theorem take {t : Token} (hkind : t.kind = kind) (hsolid : kind.isSolid = true) {p p' : Parse α}
    (h : Tracks strict b (need + 32) (cost - 32)
      (Abreast k low ending true level (kind.depthBehind depth)) R' f Q p p') :
    Tracks strict b need cost (At (Abreast k low ending true level depth) t) R' f Q
      (Parse.advance >>= fun _ => p) (Parse.advance >>= fun _ => p') :=
  takeAs hkind hsolid (Token.le_demand (by rw [hkind, hsolid])) h

theorem expectLineEnd : Tracks strict b need 0 (Abreast k low ending true level depth)
    (Abreast k low ending false level depth) id (fun _ => True) Parse.expectLineEnd
    Parse.expectLineEnd := by
  refine ⟨fun {ts ts'} hR => ?_⟩
  unfold Parse.expectLineEnd
  rw [hR.front_eq, Token.kind_down]
  split
  next hkind =>
    have hne : (Token.front ts).kind ≠ .eof := by rw [hkind]; nofun
    have hbehind := hR.behind_of_ne_eof hne
    rw [hkind] at hbehind
    exact .ok trivial ((hR.leaves hne).mono (Nat.zero_le _)) hbehind
  · exact .ok trivial (.refl ts) hR.anywhere
  · exact .ok trivial (.refl ts) hR.anywhere
  · exact .error (.refl ts) fun _ => ⟨_, _, rfl⟩

theorem at_front {t : Token} {p p' : Parse α} (h : Tracks strict b need cost R R' f Q p p') :
    Tracks strict b need cost (At R t) R' f Q p p' := h.mono And.left

end InLine

end Tracks

end Scripting
