import TransitionSystems.Fragment.Basic
import TransitionSystems.Fault

/-!
Which fragments a system admits. The first violation is reported: lists whose lengths do not fit
come first, the stem before the cycle; then an empty cycle; then steps to states that are no
successors, in order; then the steps that lead into the cycle from the stem and from its own end.
The loops are searches through the steps of a part (`brokenTransition?_eq_findSome?` and
`brokenStep?_eq_findSome?`), and all that is said of them elsewhere is said of these steps.
-/
namespace TransitionSystems.System

/-- The first step, counted from `i`, that its action does not allow. It is looked for as long as
there are both a next state and an action. -/
def brokenTransition? (S : System) : Nat → List State → List Action → Option Violation
  | i, s :: t :: ss, a :: as =>
    if t ∈ S.successorsBy s a then S.brokenTransition? (i + 1) (t :: ss) as
    else some (.brokenTransition i s a t)
  | _, _, _ => none

/-- The first step, counted from `i`, that no declared action allows. -/
def brokenStep? (S : System) : Nat → Path → Option Violation
  | i, s :: t :: ss =>
    if t ∈ S.successors s then S.brokenStep? (i + 1) (t :: ss) else some (.brokenStep i s t)
  | _, _ => none

def executionViolation? (S : System) (e : Execution) : Option Violation :=
  if e.states.length = e.actions.length + 1 then S.brokenTransition? 0 e.states e.actions
  else some (.executionShape e.states.length e.actions.length)

/-- The last state of `e`, if there is one and the last action does not lead from it to `head`. -/
def notLeadingBy? (S : System) (e : Execution) (head : State) : Option State :=
  match e.states.getLast?, e.actions.getLast? with
  | some s, some a => if head ∈ S.successorsBy s a then none else some s
  | _, _ => none

/-- The last state of `p`, if there is one and `head` is no successor of it. -/
def notLeading? (S : System) (p : Path) (head : State) : Option State :=
  p.getLast?.filter fun s => head ∉ S.successors s

def executionLassoViolation? (S : System) (l : Lasso Execution) : Option Violation :=
  if l.stem.states.length ≠ l.stem.actions.length then
    some (.stemShape l.stem.states.length l.stem.actions.length)
  else if l.cycle.states.length ≠ l.cycle.actions.length then
    some (.cycleShape l.cycle.states.length l.cycle.actions.length)
  else
    match l.cycle.states.head? with
    | none => some .emptyCycle
    | some head =>
      (S.brokenTransition? 0 l.stem.states l.stem.actions).or
        ((S.brokenTransition? 0 l.cycle.states l.cycle.actions).or
          (((S.notLeadingBy? l.stem head).map (.brokenJoin · head)).or
            ((S.notLeadingBy? l.cycle head).map (.brokenLoop · head))))

def pathLassoViolation? (S : System) (l : Lasso Path) : Option Violation :=
  match l.cycle.head? with
  | none => some .emptyCycle
  | some head =>
    (S.brokenStep? 0 l.stem).or
      ((S.brokenStep? 0 l.cycle).or
        (((S.notLeading? l.stem head).map (.brokenJoin · head)).or
          ((S.notLeading? l.cycle head).map (.brokenLoop · head))))

def fragmentViolation? (S : System) : Fragment → Option Violation
  | .path p => S.brokenStep? 0 p
  | .execution e => S.executionViolation? e
  | .pathLasso l => S.pathLassoViolation? l
  | .executionLasso l => S.executionLassoViolation? l

/-- The fragment follows the moves of the system. -/
def Admits (S : System) (f : Fragment) : Prop := S.fragmentViolation? f = none

instance (S : System) (f : Fragment) : Decidable (S.Admits f) :=
  inferInstanceAs (Decidable (S.fragmentViolation? f = none))

/-- The system has all steps of the execution. -/
def HasSteps (S : System) (e : Execution) : Prop :=
  ∀ step ∈ e.steps, step.2.2 ∈ S.successorsBy step.1 step.2.1

section
variable {S : System} {k : Nat} {ss : List State} {as : List Action} {π : Path}

theorem brokenTransition?_eq_findSome? :
    S.brokenTransition? k ss as = ((Execution.mk ss as).steps.zipIdx k).findSome? fun entry =>
      if entry.1.2.2 ∈ S.successorsBy entry.1.1 entry.1.2.1 then none
      else some (.brokenTransition entry.2 entry.1.1 entry.1.2.1 entry.1.2.2) := by
  fun_induction brokenTransition? S k ss as with
  | case1 k s t ss a as h ih =>
    rw [Execution.steps_cons_cons, List.zipIdx_cons, List.findSome?_cons, if_pos h, ← ih]
  | case2 k s t ss a as h =>
    rw [Execution.steps_cons_cons, List.zipIdx_cons, List.findSome?_cons, if_neg h]
  | case3 ss k as h =>
    have hsteps : (Execution.mk ss as).steps = [] := by
      rcases ss with _ | ⟨s, _ | ⟨t, ss⟩⟩
      · rfl
      · simp [Execution.steps]
      · rcases as with _ | ⟨a, as⟩
        · rfl
        · exact (h s t ss a as rfl rfl).elim
    rw [hsteps, List.zipIdx_nil, List.findSome?_nil]

theorem brokenStep?_eq_findSome? :
    S.brokenStep? k π = ((π.zip π.tail).zipIdx k).findSome? fun entry =>
      if entry.1.2 ∈ S.successors entry.1.1 then none
      else some (.brokenStep entry.2 entry.1.1 entry.1.2) := by
  fun_induction brokenStep? S k π with
  | case1 k s t ss h ih =>
    rw [List.tail_cons, List.zip_cons_cons, List.zipIdx_cons, List.findSome?_cons, if_pos h, ih,
      List.tail_cons]
  | case2 k s t ss h =>
    rw [List.tail_cons, List.zip_cons_cons, List.zipIdx_cons, List.findSome?_cons, if_neg h]
  | case3 π k h =>
    rcases π with _ | ⟨s, _ | ⟨t, ss⟩⟩
    · rfl
    · rfl
    · exact (h s t ss rfl).elim

theorem hasSteps_cons_cons_iff {s t : State} {a : Action} :
    S.HasSteps ⟨s :: t :: ss, a :: as⟩ ↔ t ∈ S.successorsBy s a ∧ S.HasSteps ⟨t :: ss, as⟩ := by
  rw [HasSteps, Execution.steps_cons_cons, List.forall_mem_cons]
  rfl

/-- An action at the last state or after it is not looked at. -/
theorem hasSteps_append_iff (hlen : ss.length ≤ as.length + 1) (bs : List Action) :
    S.HasSteps ⟨ss, as ++ bs⟩ ↔ S.HasSteps ⟨ss, as⟩ := by
  rw [HasSteps, HasSteps, Execution.steps_append hlen]

theorem brokenTransition?_eq_none_iff :
    S.brokenTransition? k ss as = none ↔ S.HasSteps ⟨ss, as⟩ := by
  rw [brokenTransition?_eq_findSome?]
  exact ListSet.findSome?_zipIdx_eq_none_iff fun step i => by simp

theorem brokenStep?_eq_none_iff :
    S.brokenStep? k π = none ↔ ∀ step ∈ π.zip π.tail, step.2 ∈ S.successors step.1 := by
  rw [brokenStep?_eq_findSome?]
  exact ListSet.findSome?_zipIdx_eq_none_iff fun step i => by simp

end

end TransitionSystems.System
