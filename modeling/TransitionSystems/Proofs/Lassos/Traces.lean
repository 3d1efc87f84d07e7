import TransitionSystems.Proofs.Lassos.Words
import TransitionSystems.Trace

/-!
Traces of endless runs, label by label. An unrolled trace goes through the labels of its stem and
then round and round those of its cycle; if there is no cycle it ends with the stem. It never shows
anything else than the two parts do, so that to look through both parts once is to look at the whole
trace (`always_iff_unroll`).
-/
namespace TransitionSystems

namespace Lasso

variable {α : Type} {l : Lasso (List α)} {x : α} {i : Nat}

theorem at?_of_lt (hi : i < l.stem.length) : l.at? i = l.stem[i]? := if_pos hi

theorem at?_of_le (hi : l.stem.length ≤ i) :
    l.at? i = l.cycle[(i - l.stem.length) % l.cycle.length]? :=
  if_neg (Nat.not_lt.mpr hi)

theorem mem_lap_of_at?_eq_some (h : l.at? i = some x) : x ∈ l.lap := by
  rcases Nat.lt_or_ge i l.stem.length with hi | hi
  · rw [at?_of_lt hi] at h
    exact List.mem_append_left _ (List.mem_of_getElem? h)
  · rw [at?_of_le hi] at h
    exact List.mem_append_right _ (List.mem_of_getElem? h)

/-- What an unrolled lasso shows at all it shows in its first lap. -/
theorem exists_mem_unroll_iff : (∃ n, x ∈ l.unroll n) ↔ x ∈ l.lap := by
  constructor
  · rintro ⟨n, hx⟩
    obtain ⟨i, hi⟩ := List.mem_iff_getElem?.mp hx
    rw [getElem?_unroll] at hi
    split at hi
    · exact mem_lap_of_at?_eq_some hi
    · cases hi
  · intro hx
    exact ⟨l.lap.length, by rwa [unroll_lap]⟩

theorem unroll_of_cycle_eq_nil (hcycle : l.cycle = []) (n : Nat) : l.unroll n = l.stem.take n := by
  refine List.ext_getElem? fun i => ?_
  rw [getElem?_unroll, List.getElem?_take]
  refine if_congr Iff.rfl ?_ rfl
  rcases Nat.lt_or_ge i l.stem.length with hi | hi
  · exact at?_of_lt hi
  · rw [at?_of_le hi, hcycle, List.getElem?_nil, List.getElem?_eq_none hi]

end Lasso

namespace Trace

/-- **An endless trace and its two parts.** Unrolled, the trace has the labels of the stem first,
and from then on those of the cycle in turn; it does not end, unless there is no cycle: then it ends
with the stem. A proposition holds all along the trace, which is looked up in the two parts, if and
only if it is in every label of the unrolled trace, however far it is unrolled. -/
theorem always_iff_unroll (l : Lasso (List Label)) :
    (∀ n i, i < n → i < l.stem.length → ((lasso l).unroll n)[i]? = l.stem[i]?) ∧
    (l.cycle ≠ [] → ∀ n, ((lasso l).unroll n).length = n ∧
      ∀ i, i < n → l.stem.length ≤ i →
        ((lasso l).unroll n)[i]? = l.cycle[(i - l.stem.length) % l.cycle.length]?) ∧
    (l.cycle = [] → ∀ n, (lasso l).unroll n = l.stem.take n) ∧
    ∀ p, (lasso l).always p = true ↔ ∀ n, ∀ label ∈ (lasso l).unroll n, p ∈ label := by
  refine ⟨?_, ?_, fun hnil n => Lasso.unroll_of_cycle_eq_nil hnil n, ?_⟩
  · intro n i hn hi
    rw [unroll, Lasso.getElem?_unroll, if_pos hn, Lasso.at?_of_lt hi]
  · intro hcycle n
    refine ⟨Lasso.length_unroll hcycle n, ?_⟩
    intro i hn hi
    rw [unroll, Lasso.getElem?_unroll, if_pos hn, Lasso.at?_of_le hi]
  · intro p
    rw [always_iff]
    constructor
    · intro h n label hlabel
      exact h label (Lasso.exists_mem_unroll_iff.mp ⟨n, hlabel⟩)
    · intro h label hlabel
      obtain ⟨n, hn⟩ := Lasso.exists_mem_unroll_iff.mpr hlabel
      exact h n label hn

/-- Two labels that take turns after a first one, with one proposition in all of them. -/
def alternation : Lasso (List Label) where
  stem := [Label.ofNames ["p", "s"]]
  cycle := [Label.ofNames ["q", "s"], Label.ofNames ["r", "s"]]

theorem always_iff_unroll_alternation :
    alternation.cycle ≠ [] ∧
    ((lasso alternation).unroll 6)[0]? = some (Label.ofNames ["p", "s"]) ∧
    (∀ n, ((lasso alternation).unroll n).length = n) ∧
    ((lasso alternation).unroll 6)[5]? = some (Label.ofNames ["q", "s"]) ∧
    (∀ n, ∀ label ∈ (lasso alternation).unroll n, ⟨"s"⟩ ∈ label) ∧
    ∀ n, (lasso ⟨alternation.stem, []⟩).unroll n = alternation.stem.take n := by
  have hcycle : alternation.cycle ≠ [] := nofun
  obtain ⟨hstem, hround, _, halways⟩ := always_iff_unroll alternation
  exact ⟨hcycle, hstem 6 0 (by decide) (by decide), fun n => (hround hcycle n).1,
    (hround hcycle 6).2 5 (by decide) (by decide), (halways _).mp (by decide),
    (always_iff_unroll ⟨alternation.stem, []⟩).2.2.1 rfl⟩

end Trace
end TransitionSystems
