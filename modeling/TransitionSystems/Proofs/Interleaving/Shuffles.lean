import TransitionSystems.Catalogue
import TransitionSystems.Proofs.Interleaving.Steps
import TransitionSystems.Proofs.Runs

/-!
Executions of an interleaving are shuffles. Each step of such an execution can be given to one side
in such a way that the other side rests and that the steps given to a side are an execution of it
(`run_interleavingParts_iff`). A step may be open to both sides; then either may be chosen.
-/
namespace TransitionSystems

inductive Side
  | left
  | right
deriving DecidableEq

namespace Side

variable {α : Type}

def other : Side → Side
  | left => right
  | right => left

def of : Side → α × α → α
  | left, p => p.1
  | right, p => p.2

/-- The elements at the places that are given to the side. -/
def chosen (d : Side) : List Side → List α → List α
  | m :: ms, x :: xs => if m = d then x :: chosen d ms xs else chosen d ms xs
  | _, _ => []

/-- What a side does in an execution: its first state, and the steps that are given to it. -/
def share (d : Side) (ms : List Side) (p : State × State) (qs : List (State × State))
    (as : List Action) : Execution :=
  ⟨d.of p :: d.chosen ms (qs.map d.of), d.chosen ms as⟩

end Side

def pairState (p : State × State) : State := .product p.1 p.2

namespace System

/-- The marks `ms` give each step from `p` along `qs` to a side. The other side stays where it is,
and each side makes an execution of its system out of its steps. -/
structure Shuffles (S T : System) (ms : List Side) (p : State × State) (qs : List (State × State))
    (as : List Action) : Prop where
  length : ms.length = as.length
  rests : ∀ i d x y, ms[i]? = some d → (p :: qs)[i]? = some x → (p :: qs)[i + 1]? = some y →
    d.other.of y = d.other.of x
  left : S.Admits (.execution (Side.left.share ms p qs as))
  right : T.Admits (.execution (Side.right.share ms p qs as))

/-- The side `d` moves from `p` to `q`, and the other one rests. -/
def SideStep (S T : System) (d : Side) (p q : State × State) (a : Action) : Prop :=
  d.of q ∈ (d.of (S, T)).successorsBy (d.of p) a ∧ d.other.of q = d.other.of p

variable {S T : System} {p q : State × State} {qs : List (State × State)} {a : Action}
  {as : List Action}

theorem pairState_mem_successorsBy_iff (hS : S.Valid) (hT : T.Valid) (hp : p.1 ∈ S.states)
    (hp' : p.2 ∈ T.states) :
    pairState q ∈ (S.interleavingParts T).successorsBy (pairState p) a ↔
      ∃ d, S.SideStep T d p q a := by
  obtain ⟨s, t⟩ := p
  obtain ⟨s', t'⟩ := q
  rw [pairState, pairState, mem_successorsBy_interleavingParts hS hT hp hp']
  constructor
  · rintro (⟨u, hu, heq⟩ | ⟨u, hu, heq⟩)
    · cases heq
      exact ⟨.left, hu, rfl⟩
    · cases heq
      exact ⟨.right, hu, rfl⟩
  · rintro ⟨d, hstep, hrest⟩
    cases d with
    | left =>
      cases hrest
      exact Or.inl ⟨s', hstep, rfl⟩
    | right =>
      cases hrest
      exact Or.inr ⟨t', hstep, rfl⟩

theorem rests_cons_iff {d : Side} {ms : List Side} :
    (∀ i e x y, (d :: ms)[i]? = some e → (p :: q :: qs)[i]? = some x →
        (p :: q :: qs)[i + 1]? = some y → e.other.of y = e.other.of x) ↔
      d.other.of q = d.other.of p ∧
        ∀ i e x y, ms[i]? = some e → (q :: qs)[i]? = some x → (q :: qs)[i + 1]? = some y →
          e.other.of y = e.other.of x := by
  constructor
  · intro h
    refine ⟨h 0 d p q rfl rfl rfl, ?_⟩
    intro i e x y he hx hy
    exact h (i + 1) e x y he hx hy
  · rintro ⟨hfirst, hlater⟩ i e x y he hx hy
    cases i with
    | zero =>
      cases he
      cases hx
      cases hy
      exact hfirst
    | succ i => exact hlater i e x y he hx hy

/-- The side that takes the first step makes it the first one of its execution. -/
theorem admits_share_cons_iff {R : System} {d : Side} {ms : List Side} :
    R.Admits (.execution (d.share (d :: ms) p (q :: qs) (a :: as))) ↔
      d.of q ∈ R.successorsBy (d.of p) a ∧ R.Admits (.execution (d.share ms q qs as)) := by
  simp only [admits_execution_iff, Side.share, List.map_cons, Side.chosen, if_true]
  exact run_cons_cons_iff

/-- The side that rests during the first step does the same without it. -/
theorem share_cons_of_rests {d e : Side} {ms : List Side} (hne : d ≠ e) (hrest : e.of q = e.of p) :
    e.share (d :: ms) p (q :: qs) (a :: as) = e.share ms q qs as := by
  simp only [Side.share, List.map_cons, Side.chosen, if_neg hne, hrest]

theorem shuffles_nil (p : State × State) : S.Shuffles T [] p [] [] where
  length := rfl
  rests := by
    intro i d x y hd
    simp at hd
  left := admits_execution_iff.mpr (.single _)
  right := admits_execution_iff.mpr (.single _)

theorem shuffles_cons_iff {d : Side} {ms : List Side} :
    S.Shuffles T (d :: ms) p (q :: qs) (a :: as) ↔
      S.SideStep T d p q a ∧ S.Shuffles T ms q qs as := by
  constructor
  · rintro ⟨hlen, hrests, hleft, hright⟩
    have hlen' : ms.length = as.length := by simpa using hlen
    obtain ⟨hrest, hlater⟩ := rests_cons_iff.mp hrests
    cases d with
    | left =>
      obtain ⟨hstep, hleft⟩ := admits_share_cons_iff.mp hleft
      rw [share_cons_of_rests (e := .right) (by decide) hrest] at hright
      exact ⟨⟨hstep, hrest⟩, hlen', hlater, hleft, hright⟩
    | right =>
      obtain ⟨hstep, hright⟩ := admits_share_cons_iff.mp hright
      rw [share_cons_of_rests (e := .left) (by decide) hrest] at hleft
      exact ⟨⟨hstep, hrest⟩, hlen', hlater, hleft, hright⟩
  · rintro ⟨⟨hstep, hrest⟩, hlen, hrests, hleft, hright⟩
    have hlen' : (d :: ms).length = (a :: as).length := by simpa using hlen
    have hrests' := rests_cons_iff.mpr ⟨hrest, hrests⟩
    cases d with
    | left =>
      refine ⟨hlen', hrests', admits_share_cons_iff.mpr ⟨hstep, hleft⟩, ?_⟩
      rw [share_cons_of_rests (e := .right) (by decide) hrest]
      exact hright
    | right =>
      refine ⟨hlen', hrests', ?_, admits_share_cons_iff.mpr ⟨hstep, hright⟩⟩
      rw [share_cons_of_rests (e := .left) (by decide) hrest]
      exact hleft

theorem run_interleavingParts_iff (hS : S.Valid) (hT : T.Valid) (p : State × State)
    (qs : List (State × State)) (as : List Action)
    (hdeclared : ∀ r ∈ p :: qs, r.1 ∈ S.states ∧ r.2 ∈ T.states) (hlen : qs.length = as.length) :
    (S.interleavingParts T).Run ((p :: qs).map pairState) as ↔ ∃ ms, S.Shuffles T ms p qs as := by
  induction qs generalizing p as with
  | nil =>
    cases as with
    | nil => exact ⟨fun _ => ⟨[], shuffles_nil p⟩, fun _ => .single _⟩
    | cons a as => simp at hlen
  | cons q qs ih =>
    cases as with
    | nil => simp at hlen
    | cons a as =>
      obtain ⟨hp, hp'⟩ := hdeclared p (List.mem_cons_self ..)
      have hrest := ih q as (fun r hr => hdeclared r (List.mem_cons_of_mem _ hr))
        (by simpa using hlen)
      rw [List.map_cons] at hrest
      rw [List.map_cons, List.map_cons, run_cons_cons_iff,
        pairState_mem_successorsBy_iff hS hT hp hp', hrest]
      constructor
      · rintro ⟨⟨d, hstep⟩, ms, hms⟩
        exact ⟨d :: ms, shuffles_cons_iff.mpr ⟨hstep, hms⟩⟩
      · rintro ⟨ms, hms⟩
        cases ms with
        | nil => exact absurd hms.length (by simp)
        | cons d ms =>
          obtain ⟨hstep, hms⟩ := shuffles_cons_iff.mp hms
          exact ⟨⟨d, hstep⟩, ms, hms⟩

/-- A step that is given to a side leaves the other side where it is. -/
theorem Shuffles.rests_left_or_right {ms : List Side} (h : S.Shuffles T ms p qs as)
    (hlen : qs.length = as.length) (i : Nat) (x y : State × State) (hx : (p :: qs)[i]? = some x)
    (hy : (p :: qs)[i + 1]? = some y) : y.1 = x.1 ∨ y.2 = x.2 := by
  have hi : i < ms.length := by
    have hlt := (List.getElem?_eq_some_iff.mp hy).1
    have hmarks := h.length
    rw [List.length_cons] at hlt
    omega
  have hrests := h.rests i ms[i] x y (List.getElem?_eq_getElem hi) hx hy
  cases hd : ms[i] with
  | left =>
    rw [hd] at hrests
    exact Or.inr hrests
  | right =>
    rw [hd] at hrests
    exact Or.inl hrests

/-- **The executions of an interleaving are the shuffles of executions of its sides.** No step moves
both sides at once, also where both know the action. -/
theorem admits_interleave_iff_shuffles (hS : S.Valid) (hT : T.Valid) (p : State × State)
    (qs : List (State × State)) (as : List Action)
    (hdeclared : ∀ r ∈ p :: qs, r.1 ∈ S.states ∧ r.2 ∈ T.states) (hlen : qs.length = as.length) :
    ∃ P, S.interleave T = .ok P ∧
      (P.Admits (.execution ⟨(p :: qs).map pairState, as⟩) ↔ ∃ ms, S.Shuffles T ms p qs as) ∧
      (P.Admits (.execution ⟨(p :: qs).map pairState, as⟩) →
        ∀ i x y, (p :: qs)[i]? = some x → (p :: qs)[i + 1]? = some y → y.1 = x.1 ∨ y.2 = x.2) := by
  have hiff := run_interleavingParts_iff hS hT p qs as hdeclared hlen
  rw [← admits_execution_iff (e := ⟨(p :: qs).map pairState, as⟩)] at hiff
  refine ⟨_, interleave_eq_ok hS hT, hiff, ?_⟩
  intro h
  obtain ⟨ms, hms⟩ := hiff.mp h
  exact hms.rests_left_or_right hlen

/-- Two chains side by side. The right one moves first, and then the left one. The last step stays
in its pair. -/
def chainWalk : List (State × State) :=
  [(.named "1", .named "2"), (.named "2", .named "2"), (.named "2", .named "2")]

/-- Either side can take the last step. -/
theorem shuffles_chainWalk (d : Side) :
    Catalogue.simpleChain.Shuffles Catalogue.simpleChain [.right, .left, d]
      (.named "1", .named "1") chainWalk [⟨"a"⟩, ⟨"a"⟩, ⟨"a"⟩] := by
  refine shuffles_cons_iff.mpr ⟨⟨by decide, rfl⟩, shuffles_cons_iff.mpr ⟨⟨by decide, rfl⟩,
    shuffles_cons_iff.mpr ⟨?_, shuffles_nil _⟩⟩⟩
  cases d with
  | left => exact ⟨by decide, rfl⟩
  | right => exact ⟨by decide, rfl⟩

/-- The walk is an execution; a step from the first pair to the last one would move both sides. -/
theorem admits_interleave_iff_shuffles_chainWalk :
    Catalogue.simpleChain.Valid ∧
      (∀ r ∈ (.named "1", .named "1") :: chainWalk,
        r.1 ∈ Catalogue.simpleChain.states ∧ r.2 ∈ Catalogue.simpleChain.states) ∧
      (∀ d, Catalogue.simpleChain.Shuffles Catalogue.simpleChain [.right, .left, d]
        (.named "1", .named "1") chainWalk [⟨"a"⟩, ⟨"a"⟩, ⟨"a"⟩]) ∧
      ∃ P, Catalogue.simpleChain.interleave Catalogue.simpleChain = .ok P ∧
        P.Admits (.execution ⟨((.named "1", .named "1") :: chainWalk).map pairState,
          [⟨"a"⟩, ⟨"a"⟩, ⟨"a"⟩]⟩) ∧
        ¬P.Admits (.execution ⟨[(.named "1", .named "1"), (.named "2", .named "2")].map pairState,
          [⟨"a"⟩]⟩) := by
  have hvalid : Catalogue.simpleChain.Valid := by decide
  have hdeclared : ∀ r ∈ (.named "1", .named "1") :: chainWalk,
      r.1 ∈ Catalogue.simpleChain.states ∧ r.2 ∈ Catalogue.simpleChain.states := by decide
  obtain ⟨P, hP, hwalk, _⟩ :=
    admits_interleave_iff_shuffles hvalid hvalid _ chainWalk [⟨"a"⟩, ⟨"a"⟩, ⟨"a"⟩] hdeclared rfl
  obtain ⟨P', hP', _, hsingle⟩ := admits_interleave_iff_shuffles hvalid hvalid
    (.named "1", .named "1") [(.named "2", .named "2")] [⟨"a"⟩] (by decide) rfl
  obtain rfl : P' = P := Except.ok.inj (hP'.symm.trans hP)
  have hadmits := hwalk.mpr ⟨_, shuffles_chainWalk .left⟩
  refine ⟨hvalid, hdeclared, shuffles_chainWalk, P', hP, hadmits, fun hjump => ?_⟩
  have hrests := hsingle hjump 0 _ _ rfl rfl
  exact absurd hrests (by decide)

end System
end TransitionSystems
