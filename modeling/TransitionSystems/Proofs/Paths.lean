import TransitionSystems.Catalogue
import TransitionSystems.Proofs.Invariants

/-!
Paths as executions without their actions. A path is admitted if and only if actions can be put
between its states so that the execution is; they are found one after the other, from the front
(`exists_run_of_isChain`). A lasso is admitted if and only if its parts are when each is led on to
the first state of the cycle (`admits_pathLasso_iff_parts`, `admits_executionLasso_iff_parts`), and
so the same holds of endless runs (`admits_path_iff_exists_actions`).
-/
namespace TransitionSystems

/-- Either part of a linked lasso leads on to the first place of the cycle. -/
theorem Lasso.linked_iff_isChain_append {α : Type} {R : α → α → Prop} {stem ys : List α} {y : α} :
    Linked R ⟨stem, y :: ys⟩ ↔ (stem ++ [y]).IsChain R ∧ ((y :: ys) ++ [y]).IsChain R := by
  rw [linked_cons_iff, List.isChain_append, List.isChain_append]
  simp only [List.isChain_singleton, List.head?_cons, Option.mem_some_iff, forall_eq', true_and]
  constructor
  · rintro ⟨hstem, hcycle, hjoin, hloop⟩
    exact ⟨⟨hstem, hjoin⟩, hcycle, hloop⟩
  · rintro ⟨⟨hstem, hjoin⟩, hcycle, hloop⟩
    exact ⟨hstem, hcycle, hjoin, hloop⟩

namespace System

variable {S : System} {s : State} {ss : List State}

/-! ## Finite runs -/

theorem exists_run_of_isChain (h : (s :: ss).IsChain fun s t => t ∈ S.successors s) :
    ∃ as, S.Run (s :: ss) as := by
  induction ss generalizing s with
  | nil => exact ⟨[], .single s⟩
  | cons t ss ih =>
    obtain ⟨ht, hrest⟩ := List.isChain_cons_cons.mp h
    obtain ⟨a, _, hstep⟩ := mem_successors.mp ht
    obtain ⟨as, hrun⟩ := ih hrest
    exact ⟨a :: as, .step hstep hrun⟩

theorem admits_path_iff_exists_execution (hS : S.Valid) {π : Path} (hne : π ≠ []) :
    S.Admits (.path π) ↔ ∃ as, S.Admits (.execution ⟨π, as⟩) := by
  simp only [admits_path_iff, admits_execution_iff]
  constructor
  · intro hchain
    obtain ⟨s, ss, rfl⟩ := List.exists_cons_of_ne_nil hne
    exact exists_run_of_isChain hchain
  · rintro ⟨as, hrun⟩
    exact hrun.isChain hS

/-! ## Lassos -/

/-- An execution that goes on to `head` has an action at each state before. The one at `head` is
free, since nothing comes after it. -/
theorem admits_execution_append_iff {as : List Action} {head : State} (a : Action) :
    S.Admits (.execution ⟨ss ++ [head], as⟩) ↔
      ss.length = as.length ∧ (ss.zip as ++ [(head, a)]).IsChain S.Arrives := by
  rw [admits_execution_iff, run_iff, List.length_append, List.length_singleton,
    Nat.add_right_cancel_iff]
  refine and_congr_right fun hlen => ?_
  have hzip : (ss ++ [head]).zip (as ++ [a]) = ss.zip as ++ [(head, a)] := List.zip_append hlen
  rw [← hzip, ← hasSteps_iff_isChain (by simp [hlen]), hasSteps_append_iff (by simp [hlen])]

theorem admits_pathLasso_iff_parts {l : Lasso Path} :
    S.Admits (.pathLasso l) ↔ ∃ head, l.cycle.head? = some head ∧
      S.Admits (.path (l.stem ++ [head])) ∧ S.Admits (.path (l.cycle ++ [head])) := by
  obtain ⟨stem, cycle⟩ := l
  rw [admits_pathLasso_iff]
  cases cycle with
  | nil => simp
  | cons head ss => simp [Lasso.linked_iff_isChain_append, admits_path_iff]

theorem admits_executionLasso_iff_parts {l : Lasso Execution} :
    S.Admits (.executionLasso l) ↔ ∃ head, l.cycle.states.head? = some head ∧
      S.Admits (.execution ⟨l.stem.states ++ [head], l.stem.actions⟩) ∧
        S.Admits (.execution ⟨l.cycle.states ++ [head], l.cycle.actions⟩) := by
  obtain ⟨stem, ⟨ss, as⟩⟩ := l
  rw [admits_executionLasso_iff]
  cases ss with
  | nil => simp
  | cons head ss =>
    cases as with
    | nil => simp [admits_execution_iff, run_iff]
    | cons a as =>
      have hlinked : (Lasso.map Execution.departures ⟨stem, ⟨head :: ss, a :: as⟩⟩).Linked
          S.Arrives ↔ _ := Lasso.linked_iff_isChain_append
      simp only [List.head?_cons, Option.some.injEq, exists_eq_left', hlinked,
        admits_execution_append_iff a, ne_eq, reduceCtorEq, not_false_eq_true, true_and]
      constructor
      · rintro ⟨hstem, hcycle, hjoin, hloop⟩
        exact ⟨⟨hstem, hjoin⟩, hcycle, hloop⟩
      · rintro ⟨⟨hstem, hjoin⟩, hcycle, hloop⟩
        exact ⟨hstem, hcycle, hjoin, hloop⟩

theorem admits_pathLasso_iff_exists_execution (hS : S.Valid) {l : Lasso Path} :
    S.Admits (.pathLasso l) ↔
      ∃ as bs, S.Admits (.executionLasso ⟨⟨l.stem, as⟩, ⟨l.cycle, bs⟩⟩) := by
  simp only [admits_pathLasso_iff_parts, admits_executionLasso_iff_parts]
  constructor
  · rintro ⟨head, hhead, hstem, hcycle⟩
    obtain ⟨as, has⟩ := (admits_path_iff_exists_execution hS (by simp)).mp hstem
    obtain ⟨bs, hbs⟩ := (admits_path_iff_exists_execution hS (by simp)).mp hcycle
    exact ⟨as, bs, head, hhead, has, hbs⟩
  · rintro ⟨as, bs, head, hhead, has, hbs⟩
    have hstem := (admits_path_iff_exists_execution hS (by simp)).mpr ⟨as, has⟩
    have hcycle := (admits_path_iff_exists_execution hS (by simp)).mpr ⟨bs, hbs⟩
    exact ⟨head, hhead, hstem, hcycle⟩

/-- **Paths are executions without their actions.** A path, finite or endless, is admitted just if
some actions turn it into an execution that is; and nothing but the actions is lost. -/
theorem admits_path_iff_exists_actions (hS : S.Valid) :
    (∀ π : Path, π ≠ [] →
      (S.Admits (.path π) ↔ ∃ as, S.Admits (.execution ⟨π, as⟩))) ∧
    (∀ e : Execution, S.Admits (.execution e) →
      S.Admits (.path e.path) ∧
        (Fragment.path e.path).isInitial S = (Fragment.execution e).isInitial S ∧
        (Fragment.path e.path).isMaximal S = (Fragment.execution e).isMaximal S ∧
        (Fragment.path e.path).trace S = (Fragment.execution e).trace S) ∧
    ∀ l : Lasso Path, S.Admits (.pathLasso l) ↔
      ∃ as bs, S.Admits (.executionLasso ⟨⟨l.stem, as⟩, ⟨l.cycle, bs⟩⟩) := by
  refine ⟨fun π hne => admits_path_iff_exists_execution hS hne, ?_,
    fun l => admits_pathLasso_iff_exists_execution hS⟩
  intro e he
  have hchain := (admits_execution_iff.mp he).isChain hS
  exact ⟨admits_path_iff.mpr hchain, rfl, rfl, rfl⟩

/-- The machine takes silent steps on its way, and no step leads from `pay` to `beer`. -/
theorem admits_path_iff_exists_actions_beverageVendingMachine :
    Catalogue.beverageVendingMachine.Valid ∧
      (∃ as, Catalogue.beverageVendingMachine.Admits
        (.execution ⟨State.ofNames ["pay", "select", "beer", "pay"], as⟩)) ∧
      (¬∃ as, Catalogue.beverageVendingMachine.Admits
        (.execution ⟨State.ofNames ["pay", "beer"], as⟩)) ∧
      Catalogue.beverageVendingMachine.Admits (.path (State.ofNames ["pay", "select", "soda"])) ∧
      ∃ as bs, Catalogue.beverageVendingMachine.Admits
        (.executionLasso ⟨⟨State.ofNames ["soda"], as⟩,
          ⟨State.ofNames ["pay", "select", "beer"], bs⟩⟩) := by
  have hvalid : Catalogue.beverageVendingMachine.Valid := by decide
  obtain ⟨hpath, hexecution, hlasso⟩ := admits_path_iff_exists_actions hvalid
  refine ⟨hvalid, (hpath _ (by decide)).mp (by decide), ?_, ?_, (hlasso ⟨_, _⟩).mp (by decide)⟩
  · rw [← hpath _ (by decide)]
    decide
  · exact (hexecution ⟨State.ofNames ["pay", "select", "soda"], [⟨"insert_coin"⟩, .silent]⟩
      (by decide)).1

end System
end TransitionSystems
