import Mathlib.Data.String.Basic
import TransitionSystems.ListSet
import TransitionSystems.State

/-!
What the order of states is. `State.Precedes` says which state comes before which, and comparing two
states finds that out, however deep pairs and blocks are nested (`compare_eq_lt_iff`). It is a total
order that tells all states apart, and there is one block for each set of states, which lists its
members in this order (`order_and_blocks`).
-/
namespace TransitionSystems.State

/-- `s` comes before `t`: names before pairs and pairs before blocks; names by the code points of
their characters, pairs by their left and then their right sides, and blocks by their members from
the first on, where a list comes before its extensions. -/
inductive Precedes : State → State → Prop
  | name {m n : String} (h : m.toList.Lex (fun c d => c.toNat < d.toNat) n.toList) :
      Precedes (named m) (named n)
  | name_product {n : String} {l r : State} : Precedes (named n) (product l r)
  | name_block {n : String} {ms : List State} : Precedes (named n) (block ms)
  | left {l r l' r' : State} (h : Precedes l l') : Precedes (product l r) (product l' r')
  | right {l r r' : State} (h : Precedes r r') : Precedes (product l r) (product l r')
  | product_block {l r : State} {ms : List State} : Precedes (product l r) (block ms)
  | members {ms ns : List State} (h : ms.Lex Precedes ns) : Precedes (block ms) (block ns)

theorem compare_name_eq_lt_iff {m n : String} :
    compare m n = .lt ↔ m.toList.Lex (fun c d => c.toNat < d.toNat) n.toList := by
  have hname : compare m n = .lt ↔ m < n := compareOfLessAndEq_eq_lt
  rw [hname, String.lt_iff_toList_lt]
  rfl

mutual

theorem cmp_eq_lt_iff : ∀ {s t : State}, cmp s t = .lt ↔ s.Precedes t
  | named m, named n => by
    rw [cmp, compare_name_eq_lt_iff]
    constructor
    · exact .name
    · intro h
      cases h with
      | name h => exact h
  | named _, product _ _ => iff_of_true rfl .name_product
  | named _, block _ => iff_of_true rfl .name_block
  | product l r, product l' r' => by
    rw [cmp, Ordering.then_eq_lt, cmp_eq_lt_iff, cmp_eq_lt_iff]
    constructor
    · rintro (h | ⟨heq, h⟩)
      · exact .left h
      · obtain rfl := eq_of_cmp heq
        exact .right h
    · intro h
      cases h with
      | left h => exact .inl h
      | right h => exact .inr ⟨cmp_self l, h⟩
  | product _ _, block _ => iff_of_true rfl .product_block
  | block ss, block ts => by
    rw [cmp, cmpAll_eq_lt_iff]
    constructor
    · exact .members
    · intro h
      cases h with
      | members h => exact h
  | product _ _, named _ => iff_of_false (by simp [cmp]) nofun
  | block _, named _ => iff_of_false (by simp [cmp]) nofun
  | block _, product _ _ => iff_of_false (by simp [cmp]) nofun

theorem cmpAll_eq_lt_iff : ∀ {ss ts : List State}, cmpAll ss ts = .lt ↔ ss.Lex Precedes ts
  | [], [] => by simp [cmpAll]
  | [], _ :: _ => iff_of_true rfl .nil
  | _ :: _, [] => by simp [cmpAll]
  | s :: ss, t :: ts => by
    rw [cmpAll, Ordering.then_eq_lt, cmp_eq_lt_iff, cmpAll_eq_lt_iff, List.cons_lex_cons_iff]
    refine or_congr_right (and_congr_left fun _ => ?_)
    exact ⟨eq_of_cmp, fun h => h ▸ cmp_self s⟩

end

variable {s t : State}

theorem compare_eq_lt_iff : compare s t = .lt ↔ s.Precedes t := cmp_eq_lt_iff

theorem compare_eq_gt_iff : compare s t = .gt ↔ t.Precedes s := by
  rw [Std.OrientedCmp.gt_iff_lt, compare_eq_lt_iff]

theorem isLE_total (s t : State) : (compare s t).isLE = true ∨ (compare t s).isLE = true := by
  have hswap : compare t s = (compare s t).swap := Std.OrientedCmp.eq_swap
  rw [hswap]
  cases compare s t <;> simp

theorem eq_of_isLE (h : (compare s t).isLE = true) (h' : (compare t s).isLE = true) : s = t :=
  Std.LawfulEqCmp.eq_of_compare (Std.OrientedCmp.isLE_antisymm h h')

/-! ## Blocks -/

theorem nodup_of_pairwise_lt {ss : List State} (h : ss.Pairwise fun s t => compare s t = .lt) :
    ss.Nodup := by
  refine h.imp ?_
  rintro s _ hlt rfl
  exact Std.OrientedCmp.not_lt_of_lt hlt hlt

/-- Only one ascending list has the given elements. -/
theorem ascending_eq_self {ss : List State} (h : ss.Pairwise fun s t => compare s t = .lt) :
    ascending ss = ss := by
  have hperm : (ascending ss).Perm ss := by
    rw [List.perm_ext_iff_of_nodup (nodup_of_pairwise_lt (pairwise_ascending ss))
      (nodup_of_pairwise_lt h)]
    exact fun s => mem_ascending
  refine hperm.eq_of_pairwise ?_ (pairwise_ascending ss) h
  intro s t _ _ hst hts
  exact absurd hts (Std.OrientedCmp.not_lt_of_lt hst)

theorem ofMembers_eq_block {ms : List State} (h : Canonical (block ms)) :
    ofMembers ms = block ms := by
  cases h with
  | block hascending _ => rw [ofMembers, ascending_eq_self hascending]

/-- Canonical blocks are sets of states. -/
theorem block_eq_block_iff {ms ns : List State} (hm : Canonical (block ms))
    (hn : Canonical (block ns)) : block ms = block ns ↔ ∀ s, s ∈ ms ↔ s ∈ ns := by
  rw [← ofMembers_eq_block hm, ← ofMembers_eq_block hn, ofMembers_eq_iff]

/-- **States are totally ordered, and blocks are sets of states.** Comparing finds out which state
precedes the other, and only equal states are found to be equal. A block lists the given states in
strictly ascending order, and does not depend on the list that they were given by; each ascending
list makes the block that it is. -/
theorem order_and_blocks :
    (∀ s t : State, (compare s t = .lt ↔ s.Precedes t) ∧ (compare s t = .gt ↔ t.Precedes s) ∧
      (compare s t = .eq ↔ s = t)) ∧
    (∀ s t : State, (compare s t).isLE = true ∨ (compare t s).isLE = true) ∧
    (∀ s t u : State, (compare s t).isLE = true → (compare t u).isLE = true →
      (compare s u).isLE = true) ∧
    (∀ s t : State, (compare s t).isLE = true → (compare t s).isLE = true → s = t) ∧
    (∀ ss : List State, ∃ ms, ofMembers ss = block ms ∧
      ms.Pairwise (fun s t => compare s t = .lt) ∧ ∀ s, s ∈ ms ↔ s ∈ ss) ∧
    (∀ ms : List State, ms.Pairwise (fun s t => compare s t = .lt) → ofMembers ms = block ms) ∧
    ∀ ss ts : List State, ofMembers ss = ofMembers ts ↔ ListSet.isSame ss ts = true := by
  refine ⟨?_, isLE_total, ?_, ?_, ?_, ?_, ?_⟩
  · intro s t
    exact ⟨compare_eq_lt_iff, compare_eq_gt_iff, Std.LawfulEqCmp.compare_eq_iff_eq⟩
  · intro s t u
    exact Std.TransCmp.isLE_trans
  · intro s t
    exact eq_of_isLE
  · intro ss
    exact ⟨ascending ss, rfl, pairwise_ascending ss, fun s => mem_ascending⟩
  · intro ms h
    rw [ofMembers, ascending_eq_self h]
  · intro ss ts
    rw [ofMembers_eq_iff, ListSet.isSame_iff]

/-- A name, a pair and a block, given in descending order and with the name twice. -/
def mixedMembers : List State :=
  [ofMembers (ofNames ["b", "a"]), product (named "a") (named "b"), named "z", named "z"]

theorem order_and_blocks_mixedMembers :
    (named "Z").Precedes (named "a") ∧
    (ofMembers (ofNames ["a"])).Precedes (ofMembers (ofNames ["b", "a"])) ∧
    (compare (named "z") (ofMembers mixedMembers)).isLE = true ∧
    (∃ ms, ofMembers mixedMembers = block ms ∧
      ms.Pairwise (fun s t => compare s t = .lt) ∧ ∀ s, s ∈ ms ↔ s ∈ mixedMembers) ∧
    ofMembers mixedMembers = ofMembers (mixedMembers.reverse ++ mixedMembers) := by
  obtain ⟨hcompare, _, htrans, _, hlisted, _, hsame⟩ := order_and_blocks
  exact ⟨(hcompare _ _).1.mp (by decide), (hcompare _ _).1.mp (by decide),
    htrans _ (product (named "a") (named "b")) _ (by decide) (by decide), hlisted mixedMembers,
    (hsame _ _).mpr (by decide)⟩

end TransitionSystems.State
