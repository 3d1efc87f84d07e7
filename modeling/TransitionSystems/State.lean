import Std.Data.ExtTreeSet

/-!
States and how they are written. A state is a value: besides plain names there are pairs, the states
of an interleaving, and blocks, the states of a quotient. The three never coincide, whatever the
names look like. Whatever makes a block makes it by `State.ofMembers`, which keeps all states
canonical (`State.Canonical.ofMembers`): there is one block for each set of states.

Names come before pairs and pairs before blocks; names are ordered by code points, pairs by their
left and then their right component, blocks as the lists of their members, a shorter one before its
extensions. The order is total and identifies equal states only, so states can be keys of ordered
maps, and a block lists its members in ascending order.
-/
namespace TransitionSystems

inductive State
  | named (name : String)
  | product (left right : State)
  /-- The list is meant as a set; `State.ofMembers` picks one list for each set, and other lists are
  not `State.Canonical`. -/
  | block (members : List State)

namespace State

instance : Inhabited State := ⟨.named ""⟩

def ofNames (names : List String) : List State := names.map .named

def name? : State → Option String
  | named n => some n
  | _ => none

def components? : State → Option (State × State)
  | product l r => some (l, r)
  | _ => none

def members? : State → Option (List State)
  | block ms => some ms
  | _ => none

mutual

/-- A name stands for itself, a pair is written `(l, r)` and a block as its members in braces. -/
def text : State → String
  | named n => n
  | product l r => "(" ++ l.text ++ ", " ++ r.text ++ ")"
  | block ms => "\x7b" ++ ", ".intercalate (texts ms) ++ "\x7d"

def texts : List State → List String
  | [] => []
  | s :: ss => s.text :: texts ss

end

/-! ## Order -/

mutual

def cmp : State → State → Ordering
  | named m, named n => compare m n
  | named _, _ => .lt
  | product _ _, named _ => .gt
  | product l r, product l' r' => (cmp l l').then (cmp r r')
  | product _ _, block _ => .lt
  | block ss, block ts => cmpAll ss ts
  | block _, _ => .gt

def cmpAll : List State → List State → Ordering
  | [], [] => .eq
  | [], _ :: _ => .lt
  | _ :: _, [] => .gt
  | s :: ss, t :: ts => (cmp s t).then (cmpAll ss ts)

end

mutual

theorem cmp_self : ∀ s : State, cmp s s = .eq
  | named n => by simp [cmp]
  | product l r => by simp [cmp, cmp_self l, cmp_self r]
  | block ss => by simp [cmp, cmpAll_self ss]

theorem cmpAll_self : ∀ ss : List State, cmpAll ss ss = .eq
  | [] => rfl
  | s :: ss => by simp [cmpAll, cmp_self s, cmpAll_self ss]

end

mutual

theorem eq_of_cmp : ∀ {s t : State}, cmp s t = .eq → s = t
  | named m, named n, h => by simpa [cmp] using h
  | product l r, product l' r', h => by
    simp only [cmp, Ordering.then_eq_eq] at h
    rw [eq_of_cmp h.1, eq_of_cmp h.2]
  | block ss, block ts, h => by
    simp only [cmp] at h
    rw [eq_of_cmpAll h]
  | named _, product _ _, h => by simp [cmp] at h
  | named _, block _, h => by simp [cmp] at h
  | product _ _, named _, h => by simp [cmp] at h
  | product _ _, block _, h => by simp [cmp] at h
  | block _, named _, h => by simp [cmp] at h
  | block _, product _ _, h => by simp [cmp] at h

theorem eq_of_cmpAll : ∀ {ss ts : List State}, cmpAll ss ts = .eq → ss = ts
  | [], [], _ => rfl
  | s :: ss, t :: ts, h => by
    simp only [cmpAll, Ordering.then_eq_eq] at h
    rw [eq_of_cmp h.1, eq_of_cmpAll h.2]
  | [], _ :: _, h => by simp [cmpAll] at h
  | _ :: _, [], h => by simp [cmpAll] at h

end

mutual

theorem cmp_swap : ∀ s t : State, cmp s t = (cmp t s).swap
  | named m, named n => by simpa [cmp] using Std.OrientedOrd.eq_swap
  | product l r, product l' r' => by
    simp only [cmp, Ordering.swap_then]
    rw [cmp_swap l l', cmp_swap r r']
  | block ss, block ts => by
    simp only [cmp]
    rw [cmpAll_swap ss ts]
  | named _, product _ _ => by simp [cmp]
  | named _, block _ => by simp [cmp]
  | product _ _, named _ => by simp [cmp]
  | product _ _, block _ => by simp [cmp]
  | block _, named _ => by simp [cmp]
  | block _, product _ _ => by simp [cmp]

theorem cmpAll_swap : ∀ ss ts : List State, cmpAll ss ts = (cmpAll ts ss).swap
  | [], [] => rfl
  | s :: ss, t :: ts => by
    simp only [cmpAll, Ordering.swap_then]
    rw [cmp_swap s t, cmpAll_swap ss ts]
  | [], _ :: _ => rfl
  | _ :: _, [] => rfl

end

/-- Comparing by two keys is transitive if comparing by each is and the first tells values apart. -/
private theorem then_lt_trans {a₁ b₁ c₁ a₂ b₂ c₂ : Ordering}
    (eq₁ : a₁ = .eq → c₁ = b₁) (eq₂ : b₁ = .eq → c₁ = a₁)
    (lt : a₁ = .lt → b₁ = .lt → c₁ = .lt) (lt' : a₂ = .lt → b₂ = .lt → c₂ = .lt)
    (h : a₁.then a₂ = .lt) (h' : b₁.then b₂ = .lt) : c₁.then c₂ = .lt := by
  cases a₁ <;> cases b₁ <;> simp_all

mutual

theorem cmp_lt_trans : ∀ {s t u : State}, cmp s t = .lt → cmp t u = .lt → cmp s u = .lt
  | named _, named _, named _, h, h' => by
    simp only [cmp] at *
    exact Std.TransCmp.lt_trans h h'
  | named _, _, product _ _, _, _ => rfl
  | named _, _, block _, _, _ => rfl
  | product l r, product l' r', product l'' r'', h, h' =>
    then_lt_trans (fun e => by rw [eq_of_cmp e]) (fun e => by rw [eq_of_cmp e])
      (fun k k' => cmp_lt_trans k k') (fun k k' => cmp_lt_trans k k') h h'
  | product _ _, _, block _, _, _ => rfl
  | block _, block _, block _, h, h' => by
    simp only [cmp] at *
    exact cmpAll_lt_trans h h'
  | product _ _, product _ _, named _, _, h' => by simp [cmp] at h'
  | product _ _, block _, named _, _, h' => by simp [cmp] at h'
  | product _ _, block _, product _ _, _, h' => by simp [cmp] at h'
  | product _ _, named _, _, h, _ => by simp [cmp] at h
  | block _, named _, _, h, _ => by simp [cmp] at h
  | block _, product _ _, _, h, _ => by simp [cmp] at h
  | block _, block _, named _, _, h' => by simp [cmp] at h'
  | block _, block _, product _ _, _, h' => by simp [cmp] at h'
  | named _, product _ _, named _, _, h' => by simp [cmp] at h'
  | named _, block _, named _, _, h' => by simp [cmp] at h'

theorem cmpAll_lt_trans : ∀ {ss ts us : List State},
    cmpAll ss ts = .lt → cmpAll ts us = .lt → cmpAll ss us = .lt
  | [], _, _ :: _, _, _ => rfl
  | s :: ss, t :: ts, u :: us, h, h' =>
    then_lt_trans (fun e => by rw [eq_of_cmp e]) (fun e => by rw [eq_of_cmp e])
      (fun k k' => cmp_lt_trans k k') (fun k k' => cmpAll_lt_trans k k') h h'
  | _, [], [], _, h' => by simp [cmpAll] at h'
  | _, _ :: _, [], _, h' => by simp [cmpAll] at h'
  | _ :: _, [], _ :: _, h, _ => by simp [cmpAll] at h

end

instance : Ord State := ⟨cmp⟩

instance : Std.LawfulEqOrd State where
  compare_self {s} := cmp_self s
  eq_of_compare := eq_of_cmp

instance : Std.TransOrd State where
  eq_swap {s t} := cmp_swap s t
  isLE_trans {s t u} h h' := by
    rw [Ordering.isLE_iff_eq_lt_or_eq_eq] at h h' ⊢
    rcases h with h | h
    · rcases h' with h' | h'
      · exact .inl (cmp_lt_trans h h')
      · exact .inl (eq_of_cmp h' ▸ h)
    · exact eq_of_cmp h ▸ h'

instance : DecidableEq State := fun s t =>
  decidable_of_iff (compare s t = .eq) Std.LawfulEqOrd.compare_eq_iff_eq

/-- The elements of the list in ascending order, each once. -/
def ascending (ss : List State) : List State := (Std.ExtTreeSet.ofList ss compare).toList

/-- The block of the given states. -/
def ofMembers (ss : List State) : State := block (ascending ss)

theorem mem_ascending {ss : List State} {s : State} : s ∈ ascending ss ↔ s ∈ ss := by
  simp [ascending, Std.ExtTreeSet.mem_ofList]

theorem pairwise_ascending (ss : List State) :
    (ascending ss).Pairwise fun s t => compare s t = .lt := Std.ExtTreeSet.ordered_toList

theorem ascending_eq_iff {ss ts : List State} :
    ascending ss = ascending ts ↔ ∀ s, s ∈ ss ↔ s ∈ ts := by
  refine ⟨fun h s => by rw [← mem_ascending, h, mem_ascending], fun h => ?_⟩
  unfold ascending
  congr 1
  exact Std.ExtTreeSet.ext_mem fun s => by simp [Std.ExtTreeSet.mem_ofList, h s]

/-- Two blocks are equal if and only if they have the same members. -/
theorem ofMembers_eq_iff {ss ts : List State} :
    ofMembers ss = ofMembers ts ↔ ∀ s, s ∈ ss ↔ s ∈ ts := by
  rw [ofMembers, ofMembers, block.injEq, ascending_eq_iff]

/-- All blocks in the state, however deep, list their members in ascending order. -/
inductive Canonical : State → Prop
  | named (name : String) : Canonical (named name)
  | product {l r : State} (left : Canonical l) (right : Canonical r) : Canonical (product l r)
  | block {ms : List State} (ascending : ms.Pairwise fun s t => compare s t = .lt)
      (members : ∀ s ∈ ms, Canonical s) : Canonical (block ms)

theorem Canonical.ofMembers {ss : List State} (h : ∀ s ∈ ss, Canonical s) :
    Canonical (ofMembers ss) :=
  .block (pairwise_ascending ss) fun s hs => h s (mem_ascending.mp hs)

theorem canonical_of_mem_ofNames {names : List String} {s : State} (h : s ∈ ofNames names) :
    Canonical s := by
  obtain ⟨n, _, rfl⟩ := List.mem_map.mp h
  exact .named n

end State
end TransitionSystems
