import PatternAutomata.StateSet

/-! The numbers that a search along a graph comes to.

A number is visited once, when it is first taken from those to do. The search
ends because every visit leaves fewer numbers that could still be visited.
-/

set_option autoImplicit false

namespace PatternAutomata

/-- Everything reachable from `todo` along `next`, added to what was found
before. Numbers from `bound` on belong to no state and are passed over. -/
def reach (next : Nat → List Nat) (bound : Nat) (found : StateSet) : List Nat → StateSet
  | [] => found
  | id :: todo =>
    if id < bound ∧ id ∉ found then reach next bound (found.insert id) (next id ++ todo)
    else reach next bound found todo
termination_by todo => (found.missing bound, todo.length)
decreasing_by
  · rename_i fresh
    exact Prod.Lex.left _ _ (StateSet.missing_insert_lt fresh.1 fresh.2)
  · exact Prod.Lex.right _ (Nat.lt_succ_self _)

theorem lt_of_mem_reach {next : Nat → List Nat} {bound : Nat} {found : StateSet}
    {todo : List Nat} (inside : ∀ id ∈ found, id < bound) :
    ∀ id ∈ reach next bound found todo, id < bound := by
  fun_induction reach next bound found todo with
  | case1 => exact inside
  | case2 found id todo fresh ih =>
    apply ih
    intro other member
    rcases StateSet.mem_insert.mp member with rfl | member
    · exact fresh.1
    · exact inside other member
  | case3 _ _ _ _ ih => exact ih inside

end PatternAutomata
