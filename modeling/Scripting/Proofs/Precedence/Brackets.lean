/-
# Reading what stands in brackets

Anything may stand in brackets, whatever the place they stand at. Round brackets around an
expression bind as tightly as a name does; so do calls, subscripts and attributes, each
behind what it is applied to, and the reader goes on from one to the next (`admits_trailer`).

The lists in brackets are read item by item. An argument is taken for a keyword by its first
two tokens, which no expression begins with (`Opening`).
-/
import Scripting.Proofs.Precedence.Operators

namespace Scripting

open Grammar
open Parse (Leads Reads)

/-- An expression is read where anything may stand. -/
structure Expr.Legible (e : Expr) : Prop where
  accepts : Rank.lambda.Accepts e (e.kinds true)
  opening : Opening .lambda (e.kinds true)

theorem Expr.Legible.reads {e : Expr} (h : e.Legible) {n : Nat}
    (hn : 20 * (e.kinds true).length ≤ n) :
    Reads (expr n) (e.kinds true) (fun k => k.ends .lambda = true) fun e' => e'.bare = e.bare :=
  h.accepts n hn

/-- Whether a token is a text, which is joined to a text in front of it. -/
def Token.Kind.isText : Token.Kind → Bool
  | .str _ => true
  | _ => false

/-! ### Primary expressions -/

namespace Rank

variable {e : Expr} {ks : List Token.Kind}

theorem admits_primary (hks : 0 < ks.length)
    (h : ∀ n, 20 * ks.length ≤ n + 17 → Reads (primary (n + 1)) ks (fun k => k.isText = false)
      fun e' => e'.bare = e.bare) :
    applied.Admits e ks fun k => k.isText = false := by
  intro bound hbound
  simp only [depth] at hbound
  obtain ⟨n, rfl⟩ : ∃ n, bound = n + 2 := ⟨bound - 2, by omega⟩
  change Leads (Grammar.applied (n + 2)) _ _ _ _
  rw [Grammar.applied]
  exact (h n (by omega)).last fun e' he => .stop (e', n + 1) ⟨he, by omega⟩ rfl

theorem admits_behind {k : Token.Kind} (inner : Nat → Position → Parse Expr)
    (hopens : ∀ n pos ts, primary (n + 1) (⟨k, pos⟩ :: ts) =
      (Parse.advance >>= fun _ => inner n pos) (⟨k, pos⟩ :: ts))
    (h : ∀ n pos, 20 * ks.length < n → Reads (inner (n + 1) pos) ks (fun k => k.isText = false)
      fun e' => e'.bare = e.bare) :
    applied.Admits e (k :: ks) fun k => k.isText = false := by
  refine admits_primary (Nat.succ_pos _) fun n hn ts rest hts hne hrest => ?_
  rw [List.length_cons] at hn
  obtain ⟨m, rfl⟩ : ∃ m, n = m + 1 := ⟨n - 1, by omega⟩
  obtain ⟨t, us, rfl, rfl, -⟩ := List.map_eq_cons_iff.1 hts
  have hinner : Reads (Parse.advance >>= fun _ => inner (m + 1) t.pos) (t.kind :: ks)
      (fun k => k.isText = false) fun e' => e'.bare = e.bare := .advance (h m t.pos (by omega))
  rw [List.cons_append, hopens]
  exact hinner (t :: us) rest hts hne hrest

theorem admits_token {k : Token.Kind} (make : Position → Expr) (hmake : ∀ p, (make p).bare = e.bare)
    (h : ∀ n p ts, primary (n + 1) (⟨k, p⟩ :: ts) = .ok (make p) (Token.behind (⟨k, p⟩ :: ts))) :
    applied.Admits e [k] fun k => k.isText = false := by
  refine admits_primary Nat.one_pos fun n _ ts rest hts hne _ => ?_
  obtain ⟨t, us, rfl, rfl, hus⟩ := List.map_eq_cons_iff.1 hts
  cases List.map_eq_nil_iff.1 hus
  refine ⟨make t.pos, hmake t.pos, ?_⟩
  rw [List.singleton_append, h, Token.behind_cons hne]
  rfl

theorem admits_text (p : Position) (s : String) :
    applied.Admits (.str p s) [.str s] fun k => k.isText = false := by
  refine admits_behind (fun n pos => adjacentStrings n s >>= fun s' => pure (.str pos s'))
    (fun _ _ _ => rfl) fun n pos _ => ?_
  have halone : Reads (adjacentStrings (n + 1) s) [] (fun k => k.isText = false) fun s' => s' = s := by
    rw [adjacentStrings]
    refine .look (fun k hk => hk : Leading [] _ fun k => k.isText = false) (.done rfl) fun ts hts => ?_
    rw [Parse.bind_peek]
    generalize (Token.front ts).kind = k at hts ⊢
    split
    · cases hts
    · rfl
  exact halone.last fun s' hs => .done (by simp only [Expr.bare, hs])

theorem admits_bracketed (h : e.Legible) :
    applied.Admits e (bracketed (e.kinds true)) fun k => k.isText = false := by
  refine admits_behind parenthesized (fun _ _ _ => rfl) fun n pos hn => ?_
  rw [List.length_append] at hn
  rw [parenthesized]
  refine .skip (h.opening.append_not_same _ _ rfl) ?_
  exact (h.reads (by omega)).bind rfl fun e' he => .miss rfl (.expect (.done he) rfl)

/-! ### Calls, subscripts and attributes -/

theorem admits_trailer {head : Expr} {ksh : List Token.Kind} {follow : Token.Kind → Prop}
    (hhead : applied.Admits head ksh follow) (hksh : 0 < ksh.length)
    {follow' : Token.Kind → Prop} (hjoin : Leading ks follow' follow) (hks : 0 < ks.length)
    (h : ∀ n h', h'.bare = head.bare → 20 * ks.length ≤ n →
      Leads (trailers (n + 1) h') ks follow' (fun e' => e'.bare = e.bare) (trailers n)) :
    applied.Admits e (ksh ++ ks) follow' := by
  intro bound hbound
  simp only [List.length_append, depth] at hbound ⊢
  refine (hhead bound (by simp only [depth]; omega)).trans hjoin ?_
  rintro ⟨h', spare⟩ ⟨hh, hspare⟩
  simp only at hh hspare
  rcases spare with _ | n
  · omega
  intro ts rest hts hne hrest
  obtain ⟨e', he, hread⟩ := h n h' hh (by omega) ts rest hts hne hrest
  exact ⟨(e', n), ⟨he, by omega⟩, hread⟩

end Rank

/-- What may follow an expression that something can be applied to. Behind an attribute a
bracket would make it the call of a method. -/
def Expr.Follow (e : Expr) (k : Token.Kind) : Prop :=
  k.isText = false ∧ (e.isMember = true → k.same (.symbol .leftParen) = false)

theorem trailers_member {head head' : Expr} (hhead : head'.bare = head.bare) (p : Position)
    (name : String) (n : Nat) (hn : 0 < n) :
    Leads (trailers (n + 1) head') [.symbol .dot, .name name] (Expr.member p head name).Follow
      (fun e' => e'.bare = (Expr.member p head name).bare) (trailers n) := by
  rcases n with _ | n
  · omega
  rw [trailers]
  refine .peek fun pos => ?_
  change Leads (Parse.advance >>= _) _ _ _ _
  refine .advance ?_
  have hmember : Reads (member (n + 1) head') [.name name] (Expr.member p head name).Follow
      fun e' => e'.bare = (Expr.member p head name).bare := by
    rw [member]
    refine .expectName (.skip (fun k hk => hk.2 rfl) (.done ?_))
    simp only [Expr.bare, hhead]
  exact hmember.last fun e' he => .stop e' he rfl

theorem trailers_subscript {head' e : Expr} {ks : List Token.Kind} {n : Nat}
    {follow : Token.Kind → Prop}
    (h : Reads (subscript n head') ks (fun _ => True) fun e' => e'.bare = e.bare) :
    Leads (trailers (n + 1) head') (.symbol .leftBracket :: ks) follow
      (fun e' => e'.bare = e.bare) (trailers n) := by
  rw [trailers]
  refine .peek fun pos => ?_
  change Leads (Parse.advance >>= _) _ _ _ _
  refine .advance ?_
  exact (h.imp (fun _ _ => trivial) fun _ he => he).last fun e' he => .stop e' he rfl

/-! ### Arguments -/

section

variable {α β : Type} {ks : List Token.Kind} {follow : Token.Kind → Prop} {P : α → Prop}
  {q : α → Parse β}

theorem leads_keyword {x : String} {next : Option String → Parse β}
    (h : Leads (next (some x)) ks follow P q) :
    Leads (Parse.keywordName >>= next) (.name x :: .symbol .assign :: ks) follow P q :=
  fun ts rest hts hne hrest => by
    obtain ⟨⟨_, p⟩, us, rfl, rfl, hus⟩ := List.map_eq_cons_iff.1 hts
    obtain ⟨⟨_, p'⟩, vs, rfl, rfl, hvs⟩ := List.map_eq_cons_iff.1 hus
    obtain ⟨a, ha, hread⟩ := h vs rest hvs hne hrest
    refine ⟨a, ha, ?_⟩
    change next (some x) (Token.behind (⟨.symbol .assign, p'⟩ :: (vs ++ rest))) = _
    rw [Token.behind_cons (by simp [hne]), hread]

theorem leads_noKeyword {r : Rank} {next : Option String → Parse β} (hopen : Opening r ks)
    (hfollow : ¬ follow (.symbol .assign)) (h : Leads (next none) ks follow P q) :
    Leads (Parse.keywordName >>= next) ks follow P q := fun ts rest hts hne hrest => by
  have hnone : Parse.keywordName (ts ++ rest) = .ok none (ts ++ rest) := by
    unfold Parse.keywordName
    split
    · rename_i x p p' us heq
      subst hts
      rcases ts with _ | ⟨t, _ | ⟨t', ts⟩⟩
      · exact hopen.elim
      · cases heq
        exact absurd hrest hfollow
      · cases heq
        exact absurd rfl (hopen.2 x rfl)
    · rfl
  obtain ⟨a, ha, hread⟩ := h ts rest hts hne hrest
  exact ⟨a, ha, by rw [Parse.bind_of_ok hnone, hread]⟩

theorem not_any_of_nodup {name : α → String} {seen more : List α} {a : α}
    (h : ((seen ++ a :: more).map name).Nodup) : ¬ (seen.any fun b => name b == name a) = true := by
  simp only [List.any_eq_true, beq_iff_eq, not_exists, not_and]
  intro b hb hname
  rw [List.map_append, List.map_cons, List.nodup_append] at h
  exact h.2.2 _ (List.mem_map_of_mem hb) _ (.head _) hname

theorem length_separated_le (items : List (List Token.Kind)) :
    (separated items).length ≤ (behindCommas items).length := by
  cases items with
  | nil => exact Nat.le_refl 0
  | cons item items => exact Nat.le_succ _

theorem leading_behindCommas {closing : Token.Kind} (hclosing : closing.ends .lambda = true)
    (items : List (List Token.Kind)) :
    Leading (behindCommas items) (fun k => k = closing) fun k => k.ends .lambda = true := by
  cases items with
  | nil => exact fun k hk => hk ▸ hclosing
  | cons item items => exact (rfl : Token.Kind.ends .lambda (.symbol .comma) = true)

theorem reads_behindCommas {closing : Token.Kind} (hclosing : closing.same (.symbol .comma) = false)
    {items : List (List Token.Kind)} {more : Parse α} {a : α} (hnil : items = [] → P a)
    (hcons : items ≠ [] → Reads more (separated items) (fun k => k = closing) P) :
    Reads (do if ← Parse.accept (.symbol .comma) then more else pure a) (behindCommas items)
      (fun k => k = closing) P := by
  cases items with
  | nil => exact .skip (fun k hk => hk ▸ hclosing) (.done (hnil rfl))
  | cons item items => exact .accept (hcons nofun) rfl

end

theorem keywords_read (args : List Expr) {keywords : List Keyword}
    (h : ∀ k ∈ keywords, k.value.Legible) : ∀ (n : Nat) (seen : List Keyword),
    ((seen ++ keywords).map Keyword.name).Nodup →
    20 * (separated (keywords.map (Keyword.kinds true))).length + 1 ≤ n →
    Reads (arguments n args seen) (separated (keywords.map (Keyword.kinds true)))
      (fun k => k = .symbol .rightParen)
      fun found => found.1 = args ∧ found.2.map Keyword.bare = (seen ++ keywords).map Keyword.bare := by
  induction keywords with
  | nil =>
    intro n seen _ hn
    rcases n with _ | n
    · omega
    refine Leads.look (fun k hk => hk : Leading [] _ fun k => k = .symbol .rightParen)
      (.done (a := (args, seen)) (by simp)) fun ts hts => ?_
    rw [arguments, Parse.bind_check, hts]
    rfl
  | cons k keywords ih =>
    intro n seen hdistinct hn
    obtain ⟨name, value⟩ := k
    rw [List.map_cons, separated, Keyword.kinds, List.cons_append, List.cons_append] at hn ⊢
    simp only [List.length_cons, List.length_append] at hn
    rcases n with _ | n
    · omega
    have hnew := not_any_of_nodup hdistinct
    rw [arguments]
    refine .missBoth ⟨rfl, rfl⟩ (.here fun pos => leads_keyword ?_)
    change Leads (if (seen.any fun k => k.name == name) = true then _ else _) _ _ _ _
    rw [if_neg hnew]
    have hvalue := h ⟨name, value⟩ (.head _)
    refine (hvalue.reads (by simp only; omega)).bind (leading_behindCommas rfl _) fun v hv => ?_
    have hbare : Keyword.bare ⟨name, v⟩ = Keyword.bare ⟨name, value⟩ := by
      simp only [Keyword.bare, hv]
    have hmore := ih (fun k hk => h k (.tail _ hk)) n (seen ++ [⟨name, v⟩])
    change Reads (do
      if ← Parse.accept (.symbol .comma) then arguments n args (seen ++ [⟨name, v⟩])
      else pure (args, seen ++ [⟨name, v⟩])) _ _ _
    refine reads_behindCommas rfl (fun hnil => ?_) fun hcons => ?_
    · cases List.map_eq_nil_iff.1 hnil
      simp [hbare]
    refine (hmore ?_ ?_).imp (fun _ hk => hk) fun found hfound => ?_
    · simpa using hdistinct
    · have := length_separated_le (keywords.map (Keyword.kinds true))
      omega
    · simpa [hbare] using hfound

/-- The tokens of the arguments of a call, the ones with names behind the others. -/
def argumentKinds (args : List Expr) (keywords : List Keyword) : List Token.Kind :=
  separated (args.map (Expr.kinds true) ++ keywords.map (Keyword.kinds true))

section

variable {args : List Expr} {keywords : List Keyword} (hargs : ∀ a ∈ args, a.Legible)
  (hkeywords : ∀ k ∈ keywords, k.value.Legible) (hdistinct : (keywords.map Keyword.name).Nodup)

include hargs hkeywords hdistinct

theorem arguments_reads : ∀ (n : Nat) (seen : List Expr),
    20 * (argumentKinds args keywords).length + 1 ≤ n →
    Reads (arguments n seen []) (argumentKinds args keywords) (fun k => k = .symbol .rightParen)
      fun found => found.1.map Expr.bare = (seen ++ args).map Expr.bare ∧
        found.2.map Keyword.bare = keywords.map Keyword.bare := by
  unfold argumentKinds
  induction args with
  | nil =>
    intro n seen hn
    refine (keywords_read seen hkeywords n [] hdistinct hn).imp (fun _ hk => hk) fun found hfound => ?_
    rw [hfound.1, List.append_nil]
    exact ⟨rfl, hfound.2⟩
  | cons a args ih =>
    intro n seen hn
    rw [List.map_cons, List.cons_append, separated] at hn ⊢
    have hlength := length_separated_le (args.map (Expr.kinds true) ++ keywords.map (Keyword.kinds true))
    simp only [List.length_append] at hn
    rcases n with _ | n
    · omega
    have ha := hargs a (.head _)
    have hmore := ih (fun x hx => hargs x (List.mem_cons_of_mem a hx)) n
    generalize hitems : args.map (Expr.kinds true) ++ keywords.map (Keyword.kinds true) = items
      at hmore hn hlength ⊢
    have hopen : Opening .lambda (a.kinds true ++ behindCommas items) := by
      refine ha.opening.append ?_
      cases items <;> nofun
    rw [arguments]
    refine .missBoth ((hopen.leading _).imp fun k hk => ?_) (.here fun pos => ?_)
    · exact ⟨Token.Kind.same_eq_false hk rfl, Token.Kind.same_eq_false hk rfl⟩
    refine leads_noKeyword hopen nofun ?_
    change Leads (expr n >>= _) _ _ _ _
    refine (ha.reads (by omega)).bind (leading_behindCommas rfl _) fun a' ha' => ?_
    change Reads (do
      if ← Parse.accept (.symbol .comma) then arguments n (seen ++ [a']) []
      else pure (seen ++ [a'], [])) _ _ _
    refine reads_behindCommas rfl (fun hnil => ?_) fun _ => ?_
    · rw [hnil, List.append_eq_nil_iff, List.map_eq_nil_iff, List.map_eq_nil_iff] at hitems
      simp [hitems.1, hitems.2, ha']
    · have hpos := ha.opening.length_pos
      refine (hmore (seen ++ [a']) (by omega)).imp (fun _ hk => hk) fun found hfound => ?_
      simpa [ha'] using hfound

variable {head head' : Expr} (hhead : head'.bare = head.bare) (p : Position) {n : Nat}
  (hn : 20 * (bracketed (argumentKinds args keywords)).length ≤ n) {follow : Token.Kind → Prop}

include hhead hn

theorem trailers_call :
    Leads (trailers (n + 1) head') (bracketed (argumentKinds args keywords)) follow
      (fun e' => e'.bare = (Expr.call p head args keywords).bare) (trailers n) := by
  simp only [bracketed, List.length_cons, List.length_append] at hn
  have hread := arguments_reads hargs hkeywords hdistinct n [] (by omega)
  rw [trailers, bracketed]
  refine .peek fun pos => ?_
  change Leads (Parse.advance >>= _) _ _ _ _
  refine .advance (hread.bind rfl ?_)
  rintro ⟨args', keywords'⟩ ⟨hargs', hkeywords'⟩
  refine .expect ?_ rfl
  refine .stop (.call head'.pos head' args' keywords') ?_ rfl
  simp only [Expr.bare, hhead, hkeywords', hargs', List.nil_append]

theorem trailers_method (name : String) :
    Leads (trailers (n + 1) head')
      (.symbol .dot :: .name name :: bracketed (argumentKinds args keywords)) follow
      (fun e' => e'.bare = (Expr.method p head name args keywords).bare) (trailers n) := by
  simp only [bracketed, List.length_cons, List.length_append] at hn
  rcases n with _ | n
  · omega
  have hread := arguments_reads hargs hkeywords hdistinct n [] (by omega)
  have hmember : Reads (member (n + 1) head')
      (.name name :: bracketed (argumentKinds args keywords)) follow
      fun e' => e'.bare = (Expr.method p head name args keywords).bare := by
    rw [member, bracketed]
    refine .expectName (.accept ?_ rfl)
    refine hread.bind rfl ?_
    rintro ⟨args', keywords'⟩ ⟨hargs', hkeywords'⟩
    refine .expect (.done ?_) rfl
    simp only [Expr.bare, hhead, hkeywords', hargs', List.nil_append]
  rw [trailers]
  refine .peek fun pos => ?_
  change Leads (Parse.advance >>= _) _ _ _ _
  exact .advance (hmember.last fun e' he => .stop e' he rfl)

end

/-! ### Subscripts -/

theorem subscript_index {head head' key : Expr} (hhead : head'.bare = head.bare) (hkey : key.Legible)
    (p : Position) {n : Nat} (hn : 20 * (key.kinds true).length < n) (follow : Token.Kind → Prop) :
    Reads (subscript n head') (key.kinds true ++ [.symbol .rightBracket]) follow
      fun e' => e'.bare = (Expr.index p head key).bare := by
  rcases n with _ | n
  · omega
  rw [subscript]
  refine .miss (hkey.opening.append_not_same _ _ rfl) ?_
  refine (hkey.reads (by omega)).bind rfl fun k hk => .miss rfl (.expect (.done ?_) rfl)
  simp only [Expr.bare, hhead, hk]

theorem slicePart_reads {part : Option Expr} (hpart : ∀ e ∈ part, e.Legible) {n : Nat}
    (hn : 20 * (Expr.kindsIf true [] part).length < n) :
    Reads (slicePart n) (Expr.kindsIf true [] part)
      (fun k => k = .symbol .colon ∨ k = .symbol .rightBracket)
      fun found => Expr.bareIf found = Expr.bareIf part := by
  rcases n with _ | n
  · omega
  rw [slicePart]
  cases part with
  | none =>
    rw [Expr.kindsIf]
    refine .look (fun k hk => hk : Leading [] _ fun k => k = .symbol .colon ∨ k = .symbol .rightBracket)
      (.done rfl) fun ts hts => ?_
    rw [Parse.bind_check, Parse.bind_check]
    rcases hts with hts | hts <;> rw [hts] <;> rfl
  | some e =>
    have he := hpart e rfl
    rw [Expr.kindsIf, List.nil_append] at hn ⊢
    refine .missBoth ((he.opening.leading _).imp fun k hk => ?_) ?_
    · exact ⟨Token.Kind.same_eq_false hk rfl, Token.Kind.same_eq_false hk rfl⟩
    refine ((he.reads (by omega)).imp ?_ fun _ h => h).last fun e' he' => .done ?_
    · rintro k (rfl | rfl) <;> rfl
    · simp only [Expr.bareIf, he']

theorem step_reads {step : Option Expr} (hstep : ∀ e ∈ step, e.Legible) {n : Nat}
    (hn : 20 * (Expr.kindsIf true [.symbol .colon] step).length < n) :
    Reads (do if ← Parse.accept (.symbol .colon) then slicePart n else pure none)
      (Expr.kindsIf true [.symbol .colon] step) (fun k => k = .symbol .rightBracket)
      fun found => Expr.bareIf found = Expr.bareIf step := by
  cases step with
  | none =>
    rw [Expr.kindsIf]
    exact .skip (by rintro k rfl; rfl) (.done rfl)
  | some e =>
    have hpart := @slicePart_reads (some e) hstep n
    rw [Expr.kindsIf, List.nil_append] at hpart
    rw [Expr.kindsIf, List.singleton_append, List.length_cons] at hn
    rw [Expr.kindsIf, List.singleton_append]
    exact .accept ((hpart (by omega)).imp (fun _ hk => .inr hk) fun _ h => h) rfl

theorem subscript_slice {head head' : Expr} (hhead : head'.bare = head.bare)
    {start stop step : Option Expr} (hstart : ∀ e ∈ start, e.Legible)
    (hstop : ∀ e ∈ stop, e.Legible) (hstep : ∀ e ∈ step, e.Legible) (p : Position) {n : Nat}
    (hn : 20 * ((Expr.kindsIf true [] start).length + (Expr.kindsIf true [] stop).length +
      (Expr.kindsIf true [.symbol .colon] step).length) + 2 < n) (follow : Token.Kind → Prop) :
    Reads (subscript n head')
      (Expr.kindsIf true [] start ++ (.symbol .colon :: (Expr.kindsIf true [] stop ++
        (Expr.kindsIf true [.symbol .colon] step ++ [.symbol .rightBracket])))) follow
      fun e' => e'.bare = (Expr.slice p head start stop step).bare := by
  obtain ⟨n, rfl⟩ : ∃ m, n = m + 2 := ⟨n - 2, by omega⟩
  have hrest (start' : Option Expr) (hstart' : Expr.bareIf start' = Expr.bareIf start) :
      Reads (sliceRest (n + 1) head' start') (.symbol .colon :: (Expr.kindsIf true [] stop ++
        (Expr.kindsIf true [.symbol .colon] step ++ [.symbol .rightBracket]))) follow
        fun e' => e'.bare = (Expr.slice p head start stop step).bare := by
    rw [sliceRest]
    refine .expect ?_ rfl
    refine (slicePart_reads hstop (by omega)).bind ?_ fun stop' hstop' => ?_
    · cases step with
      | none => rw [Expr.kindsIf]; exact .inr rfl
      | some e => rw [Expr.kindsIf]; exact .inl rfl
    refine (step_reads hstep (by omega)).bind rfl fun step' hstep' => .expect (.done ?_) rfl
    simp only [Expr.bare, hhead, hstart', hstop', hstep']
  rw [subscript]
  cases start with
  | none =>
    rw [Expr.kindsIf, List.nil_append]
    exact .check rfl (hrest none rfl)
  | some e =>
    have he := hstart e rfl
    rw [Expr.kindsIf, List.nil_append] at hn ⊢
    refine .miss (he.opening.append_not_same _ _ rfl) ?_
    refine (he.reads (by omega)).bind rfl fun e' he' => .check rfl (hrest (some e') ?_)
    simp only [Expr.bareIf, he']

end Scripting
