/-
# The frame of the global names

The global names of a session live in a frame without a parent (`Session.Rooted`). So
an assignment on the top level binds the name there and nowhere else
(`Heap.IsRoot.assign`). A new session has such a frame, and every evaluation keeps
it: scopes are never taken away, and where a scope hangs never changes. Host functions
are asked to leave the scopes in place, too (`HostBody.KeepsScopes`).
-/
import Scripting.Proofs.Run.Evaluator
import Scripting.Proofs.Run.Sample

namespace Scripting

variable {h : Heap} {r : ScopeRef}

/-! ### Runs that keep the scopes in place -/

/-- The end of a run that leaves every scope where it was. -/
def Outcome.Roots {α : Type} (w : World) : Outcome α → Prop
  | .ok _ w' => w.heap.shape <+: w'.heap.shape
  | .fault _ w' => w.heap.shape <+: w'.heap.shape
  | .exhausted => True

theorem Outcome.Roots.trans {α : Type} {w w' : World} {o : Outcome α}
    (h : w.heap.shape <+: w'.heap.shape) (ho : o.Roots w') : o.Roots w := by
  cases o with
  | ok a w₁ => exact h.trans ho
  | fault f w₁ => exact h.trans ho
  | exhausted => trivial

theorem Run.Tame.roots {α : Type} {act : Run α} (h : act.Tame) : ∀ w, (act w).Roots w := by
  intro w
  have hw := h w
  cases hact : act w with
  | ok a w' => rw [hact] at hw; exact hw.heap.shape
  | fault f w' => rw [hact] at hw; exact hw.heap.shape
  | exhausted => trivial

def rooting : Modality where
  holds act := ∀ w, (act w).Roots w
  steady h := (Run.Tame.ofSteady h).roots
  bind {_ _ act next} ha hn w := by
    have hw := ha w
    change (Run.bind act next w).Roots w
    unfold Run.bind
    cases hact : act w with
    | ok a w' => rw [hact] at hw; exact .trans hw (hn w a w' hact w')
    | fault f w' => rw [hact] at hw; exact hw
    | exhausted => trivial
  atLine {_ line act} ha w := by
    have hw := ha w
    unfold Run.atLine
    cases hact : act w <;> rw [hact] at hw <;> exact hw
  checkpoint line moments w := by
    unfold checkpoint
    split <;> exact List.prefix_rfl

theorem rooting_catches : rooting.Catches where
  attempt {_ act} h w := by
    have hw := h w
    unfold Run.attempt
    cases hact : act w <;> rw [hact] at hw <;> exact hw
  handling {_ f act} h w := by
    have hw : (act { w with handling := f :: w.handling }).Roots w := h _
    unfold whileHandling
    cases hact : act { w with handling := f :: w.handling } <;> rw [hact] at hw <;> exact hw

/-- A function of the embedding program leaves the scopes in place if its callbacks
do. -/
def HostBody.KeepsScopes (body : HostBody) : Prop :=
  ∀ call args keywords, (∀ f passed, rooting.holds (call f passed)) →
    rooting.holds (body call args keywords)

theorem rooting_everywhere {env : Environment} (hnatives : ∀ code, (env.natives code).KeepsScopes) :
    rooting.Everywhere env where
  exhausted _ := trivial
  newFunction _ _ := List.prefix_rfl
  oneDeeper {_ act} h w := by
    have hw : (act { w with depth := w.depth + 1 }).Roots w := h _
    unfold oneDeeper
    cases hact : act { w with depth := w.depth + 1 } <;> rw [hact] at hw <;> exact hw
  refuseCall _ _ _ _ _ := List.prefix_rfl
  attempt _ _ _ _ _ := rooting.attempt_of_catches rooting_catches
  natives code _ args keywords hcall := hnatives code _ args keywords hcall

theorem Sample.body_keepsScopes (code : String) : (Sample.body code).KeepsScopes := by
  intro call args keywords hcall
  rcases Sample.body_tame code call args keywords with htame | ⟨f, rest, -, hbody⟩
  · exact htame.roots
  · rw [hbody]
    exact hcall f rest

/-! ### Sessions -/

/-- A scope is a frame without a parent. -/
def Heap.IsRoot (h : Heap) (r : ScopeRef) : Prop := h.shape[r.id]? = some (none, true)

/-- The global names live in a frame without a parent. -/
def Session.Rooted (s : Session) : Prop := s.world.heap.IsRoot s.env.globals

theorem Heap.IsRoot.keeps {h' : Heap} (hr : h.IsRoot r) (hh : h.shape <+: h'.shape) :
    h'.IsRoot r := by
  obtain ⟨more, hmore⟩ := hh
  have hlt : r.id < h.shape.length := (List.getElem?_eq_some_iff.1 hr).1
  rw [IsRoot, ← hmore, List.getElem?_append_left hlt]
  exact hr

theorem withFunctions_steady : ∀ (fs : List (String × HostCode)) (h : Heap) (l : Library),
    h.Steady (l.withFunctions h fs).2
  | [], h, _ => .refl h
  | (name, code) :: rest, h, l =>
    (Heap.Steady.newHost h _).trans (withFunctions_steady rest _ (l.withFunction h name code).1)

theorem standardLibraries_steady (h : Heap) : h.Steady h.standardLibraries.2 := by
  have hjson : h.Steady (Library.json h).2 := withFunctions_steady _ h _
  have hmath (x : Heap) : x.Steady (Library.math x).2 := withFunctions_steady _ x _
  exact hjson.trans (hmath _)

theorem Session.build_rooted (natives : String → HostBody) (settings : Settings) :
    (Session.build natives settings).Rooted := by
  have hglobal : Heap.empty.newGlobal.2.IsRoot Heap.empty.newGlobal.1 := rfl
  exact hglobal.keeps (standardLibraries_steady _).shape

theorem Session.Rooted.eval {s : Session} (hs : s.Rooted)
    (hnatives : ∀ code, (s.env.natives code).KeepsScopes) (token : CancelToken) (source : String) :
    (s.eval token source).2.Rooted := by
  unfold Session.eval
  split
  · exact hs
  next program _ =>
    have hroots := (rooting_everywhere hnatives).program stepBudget program
      { s.world with token := token, depth := 0, handling := [] }
    unfold Session.run
    split
    next hrun => rw [hrun] at hroots; exact Heap.IsRoot.keeps hs hroots
    next hrun => rw [hrun] at hroots; exact Heap.IsRoot.keeps hs hroots
    · exact hs

theorem Heap.IsRoot.scope (hr : h.IsRoot r) :
    (h.scope r).parent = none ∧ (h.scope r).isFrame = true := by
  unfold IsRoot Heap.shape at hr
  rw [List.getElem?_map, Option.map_eq_some_iff] at hr
  obtain ⟨scope, hscope, heq⟩ := hr
  rw [Array.getElem?_toList] at hscope
  rw [Heap.scope, Array.getD_eq_getD_getElem?, hscope]
  exact Prod.mk.inj heq

theorem Heap.IsRoot.chain {h : Heap} {r : ScopeRef} (hr : h.IsRoot r) : h.chain r = [r] := by
  unfold Heap.chain
  cases r.id with
  | zero => rfl
  | succ n => rw [Heap.chainUpTo, hr.scope.1]

theorem Heap.IsRoot.assign (hr : h.IsRoot r) (name : String) (v : Value) :
    h.assign r name v = h.define r name v := by
  have hframe : h.frameOf r = r := by
    unfold Heap.frameOf
    dsimp only
    rw [hr.chain, List.find?_cons, hr.scope.2]
    rfl
  unfold Heap.assign
  rw [hr.chain]
  split
  next s hs => rw [List.mem_singleton.1 (List.mem_of_find?_eq_some hs)]
  · rw [Heap.defineInFrame, hframe]

theorem Heap.IsRoot.local?_define (hr : h.IsRoot r) (name key : String)
    (v : Value) : (h.define r name v).local? r key =
      if key = name then some v else h.local? r key := by
  have hlt : r.id < h.scopes.size := by
    have := (List.getElem?_eq_some_iff.1 hr).1
    simpa [Heap.shape] using this
  rw [Heap.local?, Heap.local?, ← Table.get?_insert, Heap.define, Heap.modifyVars, Heap.scope, Heap.scope]
  simp [Array.getD_eq_getD_getElem?, Array.getElem_modify, hlt]

end Scripting
