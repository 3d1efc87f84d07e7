import TransitionSystems.Catalogue
import TransitionSystems.Fragment.Validity
import TransitionSystems.Proofs.Violations.FirstHits

/-!
What is reported of fragments. The rules that a fragment may break are listed by priority
(`System.fragmentRules`), each as the violations that break it; a violation is reported if it breaks
the first rule that is broken at all, and there is none if and only if no rule is broken
(`fragment_outcomes`). Of the steps inside a part the first one that the system does not have is
reported, by its place in that part.
-/
namespace TransitionSystems

/-! ## Rules by priority -/

/-- Of the rules that are broken, `v` breaks the first. Each rule is given by what breaks it. -/
def Reported (rules : List (Violation → Prop)) (v : Violation) : Prop :=
  ∃ rule, First (fun rule => ∃ w, rule w) rules rule ∧ rule v

variable {rule : Violation → Prop} {rules : List (Violation → Prop)} {v w : Violation}
  {o o' : Option Violation}

theorem not_reported_nil : ¬Reported [] v := by
  rintro ⟨_, ⟨_, h⟩, _⟩
  exact absurd h.mem List.not_mem_nil

theorem reported_cons_iff :
    Reported (rule :: rules) v ↔ rule v ∨ (¬∃ w, rule w) ∧ Reported rules v := by
  simp only [Reported, first_cons_iff]
  constructor
  · rintro ⟨_, ⟨rfl, _⟩ | ⟨hnone, hfirst⟩, hv⟩
    · exact .inl hv
    · exact .inr ⟨hnone, _, hfirst, hv⟩
  · rintro (hv | ⟨hnone, _, hfirst, hv⟩)
    · exact ⟨rule, .inl ⟨rfl, v, hv⟩, hv⟩
    · exact ⟨_, .inr ⟨hnone, hfirst⟩, hv⟩

theorem reported_cons_iff_of_kept (hkept : ∀ w, ¬rule w) :
    Reported (rule :: rules) v ↔ Reported rules v := by
  rw [reported_cons_iff, or_iff_right (hkept v), and_iff_right (not_exists.mpr hkept)]

theorem exists_reported_iff : (∃ v, Reported rules v) ↔ ∃ rule ∈ rules, ∃ v, rule v := by
  induction rules with
  | nil => simp [not_reported_nil]
  | cons rule rules ih =>
    by_cases hbroken : ∃ v, rule v
    · obtain ⟨v, hv⟩ := hbroken
      exact iff_of_true ⟨v, reported_cons_iff.mpr (.inl hv)⟩ ⟨rule, List.mem_cons_self, v, hv⟩
    · have hkept : ∀ w, ¬rule w := not_exists.mp hbroken
      simp only [reported_cons_iff_of_kept hkept, ih, List.mem_cons, exists_eq_or_imp, hbroken,
        false_or]

/-- A check that comes before the others looks after the first rule. -/
theorem or_eq_some_iff_reported (hrule : ∀ v, o = some v ↔ rule v)
    (hrules : ∀ v, o' = some v ↔ Reported rules v) (v : Violation) :
    o.or o' = some v ↔ Reported (rule :: rules) v := by
  have hnone : o = none ↔ ¬∃ w, rule w := by
    simp only [Option.eq_none_iff_forall_ne_some, ne_eq, hrule, not_exists]
  rw [Option.or_eq_some_iff, reported_cons_iff, hrule, hrules, hnone]

theorem eq_some_iff_reported_singleton (hrule : ∀ v, o = some v ↔ rule v) (v : Violation) :
    o = some v ↔ Reported [rule] v := by
  have hlast (v : Violation) : none = some v ↔ Reported [] v := by
    simp [not_reported_nil]
  rw [← or_eq_some_iff_reported hrule hlast, Option.or_none]

theorem ite_eq_some_iff_reported {c : Prop} [Decidable c]
    (hrules : ∀ v, o = some v ↔ Reported rules v) (v : Violation) :
    (if c then some w else o) = some v ↔ Reported ((fun v => c ∧ v = w) :: rules) v := by
  have hite : (if c then some w else o) = (if c then some w else none).or o := by
    split <;> rfl
  rw [hite]
  refine or_eq_some_iff_reported (fun v => ?_) hrules v
  split <;> simp_all [eq_comm]

namespace System

/-- Step `i` of the execution is the first that its action does not allow. -/
structure FirstBadTransition (S : System) (e : Execution) (i : Nat) (s : State) (a : Action)
    (t : State) : Prop where
  source : e.states[i]? = some s
  action : e.actions[i]? = some a
  target : e.states[i + 1]? = some t
  absent : t ∉ S.successorsBy s a
  before : ∀ j < i, ∀ s' a' t', e.states[j]? = some s' → e.actions[j]? = some a' →
    e.states[j + 1]? = some t' → t' ∈ S.successorsBy s' a'

/-- Step `i` of the path is the first that no declared action allows. -/
structure FirstBadStep (S : System) (π : Path) (i : Nat) (s t : State) : Prop where
  source : π[i]? = some s
  target : π[i + 1]? = some t
  absent : t ∉ S.successors s
  before : ∀ j < i, ∀ s' t', π[j]? = some s' → π[j + 1]? = some t' → t' ∈ S.successors s'

/-! ## Rules for fragments -/

def BadTransition (S : System) (e : Execution) (v : Violation) : Prop :=
  ∃ i s a t, v = .brokenTransition i s a t ∧ S.FirstBadTransition e i s a t

def BadStep (S : System) (π : Path) (v : Violation) : Prop :=
  ∃ i s t, v = .brokenStep i s t ∧ S.FirstBadStep π i s t

/-- The last action of `e` does not lead from its last state to the first one of the cycle, which is
reported as `f` says. -/
def BadLeadBy (S : System) (e cycle : Execution) (f : State → State → Violation) (v : Violation) :
    Prop :=
  ∃ s a t, v = f s t ∧ e.states.getLast? = some s ∧ e.actions.getLast? = some a ∧
    cycle.states.head? = some t ∧ t ∉ S.successorsBy s a

/-- No declared action leads from the last state of `π` to the first one of the cycle. -/
def BadLead (S : System) (π cycle : Path) (f : State → State → Violation) (v : Violation) : Prop :=
  ∃ s t, v = f s t ∧ π.getLast? = some s ∧ cycle.head? = some t ∧ t ∉ S.successors s

/-- The rules for a fragment by priority, each given by what breaks it. -/
def fragmentRules (S : System) : Fragment → List (Violation → Prop)
  | .path π => [S.BadStep π]
  | .execution e =>
    [fun v => e.states.length ≠ e.actions.length + 1 ∧
        v = .executionShape e.states.length e.actions.length,
      S.BadTransition e]
  | .pathLasso l =>
    [fun v => l.cycle = [] ∧ v = .emptyCycle,
      S.BadStep l.stem,
      S.BadStep l.cycle,
      S.BadLead l.stem l.cycle .brokenJoin,
      S.BadLead l.cycle l.cycle .brokenLoop]
  | .executionLasso l =>
    [fun v => l.stem.states.length ≠ l.stem.actions.length ∧
        v = .stemShape l.stem.states.length l.stem.actions.length,
      fun v => l.cycle.states.length ≠ l.cycle.actions.length ∧
        v = .cycleShape l.cycle.states.length l.cycle.actions.length,
      fun v => l.cycle.states = [] ∧ v = .emptyCycle,
      S.BadTransition l.stem,
      S.BadTransition l.cycle,
      S.BadLeadBy l.stem l.cycle .brokenJoin,
      S.BadLeadBy l.cycle l.cycle .brokenLoop]

/-- The violation does not accuse the system wrongly: where it names a step, a join or a loop, the
system does not lead from the one state to the other, by the action that is taken there. -/
def NamesAbsent (S : System) : Fragment → Violation → Prop
  | .execution e, .brokenTransition i s a t => e.actions[i]? = some a ∧ t ∉ S.successorsBy s a
  | .executionLasso l, .brokenTransition i s a t =>
    (l.stem.actions[i]? = some a ∨ l.cycle.actions[i]? = some a) ∧ t ∉ S.successorsBy s a
  | .executionLasso l, .brokenJoin s t =>
    ∃ a, l.stem.actions.getLast? = some a ∧ t ∉ S.successorsBy s a
  | .executionLasso l, .brokenLoop s t =>
    ∃ a, l.cycle.actions.getLast? = some a ∧ t ∉ S.successorsBy s a
  | .path _, .brokenStep _ s t => ∀ a ∈ S.actions, t ∉ S.successorsBy s a
  | .pathLasso _, .brokenStep _ s t => ∀ a ∈ S.actions, t ∉ S.successorsBy s a
  | .pathLasso _, .brokenJoin s t => ∀ a ∈ S.actions, t ∉ S.successorsBy s a
  | .pathLasso _, .brokenLoop s t => ∀ a ∈ S.actions, t ∉ S.successorsBy s a
  | _, _ => True

variable {S : System} {v : Violation} {i : Nat} {s t head : State} {a : Action}

/-! ## Steps -/

theorem firstBadTransition_iff_firstAt {e : Execution} : S.FirstBadTransition e i s a t ↔
    FirstAt (fun step => step.2.2 ∉ S.successorsBy step.1 step.2.1) e.steps i (s, a, t) := by
  constructor
  · intro h
    refine ⟨Execution.getElem?_steps_eq_some_iff.mpr ⟨h.source, h.action, h.target⟩, h.absent, ?_⟩
    rintro j hj ⟨s', a', t'⟩ hstep
    obtain ⟨hs, ha, ht⟩ := Execution.getElem?_steps_eq_some_iff.mp hstep
    exact not_not_intro (h.before j hj s' a' t' hs ha ht)
  · intro h
    obtain ⟨hs, ha, ht⟩ := Execution.getElem?_steps_eq_some_iff.mp h.here
    refine ⟨hs, ha, ht, h.holds, ?_⟩
    intro j hj s' a' t' hs' ha' ht'
    exact Classical.not_not.mp
      (h.before j hj (s', a', t') (Execution.getElem?_steps_eq_some_iff.mpr ⟨hs', ha', ht'⟩))

theorem firstBadStep_iff_firstAt {π : Path} : S.FirstBadStep π i s t ↔
    FirstAt (fun step => step.2 ∉ S.successors step.1) (π.zip π.tail) i (s, t) := by
  have hplace (j : Nat) (s t : State) :
      (π.zip π.tail)[j]? = some (s, t) ↔ π[j]? = some s ∧ π[j + 1]? = some t := by
    simp [List.getElem?_zip_eq_some]
  constructor
  · intro h
    refine ⟨(hplace _ _ _).mpr ⟨h.source, h.target⟩, h.absent, ?_⟩
    rintro j hj ⟨s', t'⟩ hstep
    obtain ⟨hs, ht⟩ := (hplace _ _ _).mp hstep
    exact not_not_intro (h.before j hj s' t' hs ht)
  · intro h
    obtain ⟨hs, ht⟩ := (hplace _ _ _).mp h.here
    refine ⟨hs, ht, h.holds, ?_⟩
    intro j hj s' t' hs' ht'
    exact Classical.not_not.mp (h.before j hj (s', t') ((hplace _ _ _).mpr ⟨hs', ht'⟩))

theorem brokenTransition?_eq_some_iff (e : Execution) (v : Violation) :
    S.brokenTransition? 0 e.states e.actions = some v ↔ S.BadTransition e v := by
  rw [brokenTransition?_eq_findSome?]
  refine Iff.trans (findSome?_ite_zipIdx_eq_some_iff
    (p := fun step : State × Action × State => step.2.2 ∈ S.successorsBy step.1 step.2.1)
    (f := fun i step => Violation.brokenTransition i step.1 step.2.1 step.2.2)) ?_
  simp only [Prod.exists, ← firstBadTransition_iff_firstAt, BadTransition, Nat.zero_add]

theorem brokenStep?_eq_some_iff (π : Path) (v : Violation) :
    S.brokenStep? 0 π = some v ↔ S.BadStep π v := by
  rw [brokenStep?_eq_findSome?]
  refine Iff.trans (findSome?_ite_zipIdx_eq_some_iff
    (p := fun step : State × State => step.2 ∈ S.successors step.1)
    (f := fun i step => Violation.brokenStep i step.1 step.2)) ?_
  simp only [Prod.exists, ← firstBadStep_iff_firstAt, BadStep, Nat.zero_add]

/-! ## Lassos -/

theorem notLeadingBy?_eq_some_iff {e : Execution} : S.notLeadingBy? e head = some s ↔
    e.states.getLast? = some s ∧ ∃ a, e.actions.getLast? = some a ∧ head ∉ S.successorsBy s a := by
  unfold notLeadingBy?
  cases e.states.getLast? with
  | none => simp
  | some u =>
    cases e.actions.getLast? with
    | none => simp
    | some a =>
      simp only [Option.some.injEq, exists_eq_left']
      constructor
      · intro h
        split at h
        · cases h
        · cases h
          exact ⟨rfl, ‹_›⟩
      · rintro ⟨rfl, habsent⟩
        exact if_neg habsent

theorem map_notLeadingBy?_eq_some_iff {e cycle : Execution} {f : State → State → Violation}
    (hhead : cycle.states.head? = some head) (v : Violation) :
    (S.notLeadingBy? e head).map (f · head) = some v ↔ S.BadLeadBy e cycle f v := by
  simp only [Option.map_eq_some_iff, notLeadingBy?_eq_some_iff, BadLeadBy, hhead]
  constructor
  · rintro ⟨s, ⟨hs, a, ha, habsent⟩, rfl⟩
    exact ⟨s, a, head, rfl, hs, ha, rfl, habsent⟩
  · rintro ⟨s, a, _, rfl, hs, ha, ⟨⟩, habsent⟩
    exact ⟨s, ⟨hs, a, ha, habsent⟩, rfl⟩

theorem map_notLeading?_eq_some_iff {π cycle : Path} {f : State → State → Violation}
    (hhead : cycle.head? = some head) (v : Violation) :
    (S.notLeading? π head).map (f · head) = some v ↔ S.BadLead π cycle f v := by
  simp only [notLeading?, Option.map_eq_some_iff, Option.filter_eq_some_iff, decide_eq_true_eq,
    BadLead, hhead]
  constructor
  · rintro ⟨s, ⟨hs, habsent⟩, rfl⟩
    exact ⟨s, head, rfl, hs, rfl, habsent⟩
  · rintro ⟨s, _, rfl, hs, ⟨⟩, habsent⟩
    exact ⟨s, ⟨hs, habsent⟩, rfl⟩

theorem pathLassoViolation?_eq_some_iff (l : Lasso Path) (v : Violation) :
    S.pathLassoViolation? l = some v ↔ Reported (S.fragmentRules (.pathLasso l)) v := by
  obtain ⟨stem, cycle⟩ := l
  cases cycle with
  | nil => simp [pathLassoViolation?, fragmentRules, reported_cons_iff, eq_comm]
  | cons head ss =>
    rw [fragmentRules, reported_cons_iff_of_kept (by simp)]
    exact or_eq_some_iff_reported (brokenStep?_eq_some_iff stem)
      (or_eq_some_iff_reported (brokenStep?_eq_some_iff (head :: ss))
        (or_eq_some_iff_reported (map_notLeading?_eq_some_iff rfl)
          (eq_some_iff_reported_singleton (map_notLeading?_eq_some_iff rfl)))) v

theorem executionLassoViolation?_eq_some_iff (l : Lasso Execution) (v : Violation) :
    S.executionLassoViolation? l = some v ↔ Reported (S.fragmentRules (.executionLasso l)) v := by
  obtain ⟨stem, ⟨ss, as⟩⟩ := l
  refine ite_eq_some_iff_reported (ite_eq_some_iff_reported fun v => ?_) v
  cases ss with
  | nil => simp [reported_cons_iff, eq_comm]
  | cons head ss =>
    rw [reported_cons_iff_of_kept (by simp)]
    exact or_eq_some_iff_reported (brokenTransition?_eq_some_iff stem)
      (or_eq_some_iff_reported (brokenTransition?_eq_some_iff ⟨head :: ss, as⟩)
        (or_eq_some_iff_reported (map_notLeadingBy?_eq_some_iff rfl)
          (eq_some_iff_reported_singleton (map_notLeadingBy?_eq_some_iff rfl)))) v

/-! ## Fragments -/

theorem fragmentViolation?_eq_some_iff (φ : Fragment) (v : Violation) :
    S.fragmentViolation? φ = some v ↔ Reported (S.fragmentRules φ) v := by
  cases φ with
  | path π => exact eq_some_iff_reported_singleton (brokenStep?_eq_some_iff π) v
  | execution e =>
    rw [fragmentViolation?, executionViolation?, ← ite_not]
    exact ite_eq_some_iff_reported
      (eq_some_iff_reported_singleton (brokenTransition?_eq_some_iff e)) v
  | pathLasso l => exact pathLassoViolation?_eq_some_iff l v
  | executionLasso l => exact executionLassoViolation?_eq_some_iff l v

theorem fragmentViolation?_eq_none_iff (φ : Fragment) :
    S.fragmentViolation? φ = none ↔ ∀ rule ∈ S.fragmentRules φ, ∀ v, ¬rule v := by
  have hreported : (∃ v, Reported (S.fragmentRules φ) v) ↔
      ∃ rule ∈ S.fragmentRules φ, ∃ v, rule v := exists_reported_iff
  simp only [← fragmentViolation?_eq_some_iff] at hreported
  rw [Option.eq_none_iff_forall_ne_some, ← not_exists, hreported]
  simp

theorem not_mem_successors_iff :
    t ∉ S.successors s ↔ ∀ a ∈ S.actions, t ∉ S.successorsBy s a := by
  simp only [mem_successors, not_exists, not_and]

theorem namesAbsent_of_mem_fragmentRules {φ : Fragment} {rule : Violation → Prop}
    (hrule : rule ∈ S.fragmentRules φ) (hv : rule v) : S.NamesAbsent φ v := by
  cases φ with
  | path π =>
    obtain rfl := List.mem_singleton.mp hrule
    obtain ⟨i, s, t, rfl, hfirst⟩ := hv
    exact not_mem_successors_iff.mp hfirst.absent
  | execution e =>
    simp only [fragmentRules, List.mem_cons, List.not_mem_nil, or_false] at hrule
    rcases hrule with rfl | rfl
    · obtain ⟨_, rfl⟩ := hv
      trivial
    · obtain ⟨i, s, a, t, rfl, hfirst⟩ := hv
      exact ⟨hfirst.action, hfirst.absent⟩
  | pathLasso l =>
    simp only [fragmentRules, List.mem_cons, List.not_mem_nil, or_false] at hrule
    rcases hrule with rfl | rfl | rfl | rfl | rfl
    · obtain ⟨_, rfl⟩ := hv
      trivial
    · obtain ⟨i, s, t, rfl, hfirst⟩ := hv
      exact not_mem_successors_iff.mp hfirst.absent
    · obtain ⟨i, s, t, rfl, hfirst⟩ := hv
      exact not_mem_successors_iff.mp hfirst.absent
    · obtain ⟨s, t, rfl, _, _, habsent⟩ := hv
      exact not_mem_successors_iff.mp habsent
    · obtain ⟨s, t, rfl, _, _, habsent⟩ := hv
      exact not_mem_successors_iff.mp habsent
  | executionLasso l =>
    simp only [fragmentRules, List.mem_cons, List.not_mem_nil, or_false] at hrule
    rcases hrule with rfl | rfl | rfl | rfl | rfl | rfl | rfl
    · obtain ⟨_, rfl⟩ := hv
      trivial
    · obtain ⟨_, rfl⟩ := hv
      trivial
    · obtain ⟨_, rfl⟩ := hv
      trivial
    · obtain ⟨i, s, a, t, rfl, hfirst⟩ := hv
      exact ⟨.inl hfirst.action, hfirst.absent⟩
    · obtain ⟨i, s, a, t, rfl, hfirst⟩ := hv
      exact ⟨.inr hfirst.action, hfirst.absent⟩
    · obtain ⟨s, a, t, rfl, _, ha, _, habsent⟩ := hv
      exact ⟨a, ha, habsent⟩
    · obtain ⟨s, a, t, rfl, _, ha, _, habsent⟩ := hv
      exact ⟨a, ha, habsent⟩

/-- **Which fragments are admitted, and what is reported of the others.** -/
theorem fragment_outcomes (S : System) (φ : Fragment) :
    (S.Admits φ ↔ ∀ rule ∈ S.fragmentRules φ, ∀ v, ¬rule v) ∧
    (∀ v, S.fragmentViolation? φ = some v ↔ Reported (S.fragmentRules φ) v) ∧
    (∀ v, S.fragmentViolation? φ = some v → S.NamesAbsent φ v) := by
  refine ⟨fragmentViolation?_eq_none_iff φ, fragmentViolation?_eq_some_iff φ, fun v hv => ?_⟩
  obtain ⟨rule, ⟨_, hfirst⟩, hrule⟩ := (fragmentViolation?_eq_some_iff φ v).mp hv
  exact namesAbsent_of_mem_fragmentRules hfirst.mem hrule

/-- A lasso along the chain. Its cycle ends where the chain does, and nothing leads back. -/
def openLoop : Lasso Execution :=
  ⟨⟨State.ofNames ["1"], [⟨"a"⟩]⟩, ⟨State.ofNames ["2", "3"], [⟨"a"⟩, ⟨"a"⟩]⟩⟩

theorem fragment_outcomes_simpleChain :
    Reported (Catalogue.simpleChain.fragmentRules (.path (State.ofNames ["1", "2", "1", "3", "9"])))
        (.brokenStep 2 (.named "1") (.named "3")) ∧
      Reported (Catalogue.simpleChain.fragmentRules (.executionLasso openLoop))
        (.brokenLoop (.named "3") (.named "2")) ∧
      (∃ a, openLoop.cycle.actions.getLast? = some a ∧
        .named "2" ∉ Catalogue.simpleChain.successorsBy (.named "3") a) ∧
      ∀ rule ∈ Catalogue.simpleChain.fragmentRules (.path (State.ofNames ["1", "2", "3"])),
        ∀ v, ¬rule v := by
  obtain ⟨hadmits, _⟩ :=
    fragment_outcomes Catalogue.simpleChain (.path (State.ofNames ["1", "2", "3"]))
  obtain ⟨_, hpath, _⟩ :=
    fragment_outcomes Catalogue.simpleChain (.path (State.ofNames ["1", "2", "1", "3", "9"]))
  obtain ⟨_, hlasso, habsent⟩ :=
    fragment_outcomes Catalogue.simpleChain (.executionLasso openLoop)
  exact ⟨(hpath _).mp (by decide), (hlasso _).mp (by decide),
    habsent (.brokenLoop (.named "3") (.named "2")) (by decide), hadmits.mp (by decide)⟩

end System
end TransitionSystems
