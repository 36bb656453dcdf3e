import PatternAutomata.Nfa.Simulation
import PatternAutomata.Proofs.Paths

/-! What a search along silent edges finds.

The search keeps a frontier: the successors of everything found are found too
or still to do. When nothing is left to do, the found set is closed, and it
holds nothing that closure does not force.
-/

set_option autoImplicit false

namespace PatternAutomata

section
variable {next : Nat → List Nat} {bound : Nat} {found : StateSet} {todo : List Nat}

theorem forall_mem_reach (holds : Nat → Prop) (old : ∀ id ∈ found, holds id)
    (sources : ∀ id ∈ todo, id < bound → holds id)
    (kept : ∀ id, holds id → ∀ other ∈ next id, other < bound → holds other) :
    ∀ id ∈ reach next bound found todo, holds id := by
  fun_induction reach next bound found todo with
  | case1 => exact old
  | case2 found id todo fresh ih =>
    have here : holds id := sources id List.mem_cons_self fresh.1
    apply ih
    · intro other member
      rcases StateSet.mem_insert.mp member with rfl | member
      · exact here
      · exact old other member
    · intro other member inside
      rcases List.mem_append.mp member with successor | later
      · exact kept id here other successor inside
      · exact sources other (List.mem_cons_of_mem _ later) inside
  | case3 found id todo _ ih =>
    apply ih old
    intro other member inside
    exact sources other (List.mem_cons_of_mem _ member) inside

theorem mem_reach_of_found : ∀ id ∈ found, id ∈ reach next bound found todo := by
  fun_induction reach next bound found todo with
  | case1 => exact fun _ member => member
  | case2 found id todo _ ih =>
    intro other member
    exact ih other (StateSet.mem_insert.mpr (Or.inr member))
  | case3 _ _ _ _ ih => exact ih

theorem mem_reach_of_todo : ∀ id ∈ todo, id < bound → id ∈ reach next bound found todo := by
  fun_induction reach next bound found todo with
  | case1 =>
    intro id member
    cases member
  | case2 found id todo fresh ih =>
    intro other member inside
    rcases List.mem_cons.mp member with rfl | later
    · exact mem_reach_of_found _ (StateSet.mem_insert.mpr (Or.inl rfl))
    · exact ih other (List.mem_append_right _ later) inside
  | case3 found id todo skipped ih =>
    intro other member inside
    rcases List.mem_cons.mp member with rfl | later
    · have known : other ∈ found := Classical.not_not.mp fun unknown => skipped ⟨inside, unknown⟩
      exact mem_reach_of_found other known
    · exact ih other later inside

/-- The frontier of a search: successors of what was found are not forgotten. -/
def Frontier (next : Nat → List Nat) (bound : Nat) (found : StateSet) (todo : List Nat) : Prop :=
  ∀ id ∈ found, ∀ other ∈ next id, other < bound → other ∈ found ∨ other ∈ todo

theorem Frontier.visit {id : Nat} (frontier : Frontier next bound found (id :: todo)) :
    Frontier next bound (found.insert id) (next id ++ todo) := by
  intro source member other successor inside
  rcases StateSet.mem_insert.mp member with rfl | old
  · exact Or.inr (List.mem_append_left _ successor)
  · rcases frontier source old other successor inside with seen | waiting
    · exact Or.inl (StateSet.mem_insert.mpr (Or.inr seen))
    · rcases List.mem_cons.mp waiting with rfl | later
      · exact Or.inl (StateSet.mem_insert.mpr (Or.inl rfl))
      · exact Or.inr (List.mem_append_right _ later)

theorem Frontier.skip {id : Nat} (frontier : Frontier next bound found (id :: todo))
    (skipped : ¬(id < bound ∧ id ∉ found)) : Frontier next bound found todo := by
  intro source member other successor inside
  rcases frontier source member other successor inside with seen | waiting
  · exact Or.inl seen
  · rcases List.mem_cons.mp waiting with rfl | later
    · exact Or.inl (Classical.not_not.mp fun unknown => skipped ⟨inside, unknown⟩)
    · exact Or.inr later

theorem reach_closed (frontier : Frontier next bound found todo) :
    ∀ id ∈ reach next bound found todo, ∀ other ∈ next id, other < bound →
      other ∈ reach next bound found todo := by
  fun_induction reach next bound found todo with
  | case1 =>
    intro id member other successor inside
    rcases frontier id member other successor inside with seen | waiting
    · exact seen
    · cases waiting
  | case2 _ _ _ _ ih => exact ih frontier.visit
  | case3 _ _ _ skipped ih => exact ih (frontier.skip skipped)

end

namespace Nfa

variable {automaton : Nfa} {ids : List Nat} {source target : Nat}

theorem closure_closed (member : source ∈ automaton.closure ids)
    (path : automaton.Path source [] target) : target ∈ automaton.closure ids := by
  have nothing : Frontier (automaton.targets · none) automaton.size ∅ ids := by
    intro id member
    simp at member
  generalize quiet : ([] : List Char) = text at path
  induction path with
  | here _ => exact member
  | silent edge rest ih =>
    have inside := reach_closed nothing _ member _ (mem_targets_iff.mpr edge) rest.source_lt
    exact ih inside quiet
  | read _ _ _ => cases quiet

/-- The closure of a list of states is what silent paths from them reach. -/
theorem mem_closure_iff :
    target ∈ automaton.closure ids ↔ ∃ source ∈ ids, automaton.Path source [] target := by
  constructor
  -- nothing but what silent paths reach is ever found
  · apply forall_mem_reach (fun id => ∃ source ∈ ids, automaton.Path source [] id)
    · intro id member
      simp at member
    · intro id member inside
      exact ⟨id, member, .here inside⟩
    · intro id ⟨source, member, path⟩ other successor inside
      exact ⟨source, member, path.append (.silent (mem_targets_iff.mp successor) (.here inside))⟩
  · intro ⟨source, member, path⟩
    -- the source was to do, so it is found, and with it all the path leads to
    exact closure_closed (mem_reach_of_todo source member path.source_lt) path

end Nfa

end PatternAutomata
