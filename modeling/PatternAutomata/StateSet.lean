import Std.Data.ExtTreeSet

/-! Finite sets of state numbers.

Two sets with the same members are equal, whatever the order they were built
in, and their members are listed in ascending order.
-/

set_option autoImplicit false

namespace PatternAutomata

abbrev StateSet := Std.ExtTreeSet Nat

namespace StateSet

theorem mem_insert {set : StateSet} {id other : Nat} :
    other ∈ set.insert id ↔ id = other ∨ other ∈ set := by
  rw [Std.ExtTreeSet.mem_insert, Nat.compare_eq_eq]

theorem mem_erase {set : StateSet} {id other : Nat} :
    other ∈ set.erase id ↔ id ≠ other ∧ other ∈ set := by
  rw [Std.ExtTreeSet.mem_erase, ne_eq, Nat.compare_eq_eq]

theorem ne_empty_iff {set : StateSet} : set ≠ ∅ ↔ ∃ id, id ∈ set := by
  constructor
  · intro occupied
    apply Classical.byContradiction
    intro none
    exact occupied (Std.ExtTreeSet.ext_mem fun id =>
      ⟨fun member => absurd ⟨id, member⟩ none, fun member => by simp at member⟩)
  · rintro ⟨id, member⟩ rfl
    simp at member

def missing (set : StateSet) (bound : Nat) : Nat :=
  (List.range bound).countP fun id => decide (id ∉ set)

theorem countP_lt_countP {α : Type} {few many : α → Bool} {values : List α} {value : α}
    (member : value ∈ values) (dropped : few value = false) (kept : many value = true)
    (below : ∀ other, few other = true → many other = true) :
    values.countP few < values.countP many := by
  induction values with
  | nil => cases member
  | cons head tail ih =>
    have rest : tail.countP few ≤ tail.countP many :=
      List.countP_mono_left fun other _ => below other
    rcases List.mem_cons.mp member with rfl | member
    · simp only [List.countP_cons, dropped, kept]
      simp
      omega
    · have step := ih member
      simp only [List.countP_cons]
      by_cases passes : few head = true
      · simp [passes, below head passes, step]
      · simp only [passes]
        simp
        omega

theorem missing_insert_lt {set : StateSet} {bound id : Nat} (inside : id < bound)
    (fresh : id ∉ set) : missing (set.insert id) bound < missing set bound := by
  refine countP_lt_countP (List.mem_range.mpr inside) ?_ ?_ ?_
  · simp
  · simpa using fresh
  · intro other outside
    simp only [mem_insert, not_or, decide_eq_true_eq] at outside ⊢
    exact outside.2

end StateSet

end PatternAutomata
