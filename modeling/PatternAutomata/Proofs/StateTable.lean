import PatternAutomata.Dfa.Basic

/-! What the operations on a deterministic automaton change.

Adding a state keeps the numbers, the transitions and the flags of all others.
A new transition changes one entry of one state, and only a state that does not
exist can be the reason for refusing it.
-/

set_option autoImplicit false

namespace PatternAutomata

namespace Dfa

variable {automaton changed : Dfa} {state : State} {set : StateSet} {id source target : Nat}
  {c d : Char}

theorem getElem?_sets : automaton.sets[id]? = (automaton.state? id).map (·.members) := by
  simp [sets, state?]

theorem length_sets : automaton.sets.length = automaton.size := by
  simp [sets, size]

theorem lt_size_of_getElem? (known : automaton.sets[id]? = some set) : id < automaton.size := by
  obtain ⟨inside, _⟩ := List.getElem?_eq_some_iff.mp known
  rwa [length_sets] at inside

theorem getElem?_of_find? (found : automaton.find? set = some id) :
    automaton.sets[id]? = some set := by
  obtain ⟨inside, same, _⟩ := Array.findIdx?_eq_some_iff_getElem.mp found
  rw [getElem?_sets, state?, Array.getElem?_eq_getElem inside, Option.map_some,
    of_decide_eq_true same]

theorem find?_eq_some_iff (distinct : automaton.sets.Nodup) :
    automaton.find? set = some id ↔ automaton.sets[id]? = some set := by
  constructor
  · exact getElem?_of_find?
  · intro known
    have member : set ∈ automaton.sets := List.mem_of_getElem? known
    obtain ⟨other, found⟩ := Option.isSome_iff_exists.mp (find?_isSome_iff.mpr member)
    have bound : id < automaton.sets.length := length_sets ▸ lt_size_of_getElem? known
    have same : id = other :=
      (List.getElem?_inj bound distinct).mp (known.trans (getElem?_of_find? found).symm)
    rw [found, same]

/-! ## Adding a state -/

theorem state?_push {states : Array State} (inside : id < states.size) :
    (Dfa.mk (states.push state)).state? id = (Dfa.mk states).state? id :=
  Array.getElem?_push_lt inside |>.trans (Array.getElem?_eq_getElem inside).symm

theorem state?_insert (inside : id < automaton.size) :
    (automaton.insert state).automaton.state? id = automaton.state? id := by
  unfold insert
  split
  · rfl
  · exact state?_push inside

theorem getElem?_insert (known : automaton.sets[id]? = some set) :
    (automaton.insert state).automaton.sets[id]? = some set := by
  rw [getElem?_sets, state?_insert (lt_size_of_getElem? known), ← getElem?_sets, known]

theorem getElem?_insert_id :
    (automaton.insert state).automaton.sets[(automaton.insert state).id]? =
      some state.members := by
  unfold insert
  split
  · exact getElem?_of_find? ‹_›
  · rw [getElem?_sets, state?, size]
    change (automaton.states.push state)[automaton.states.size]?.map _ = _
    rw [Array.getElem?_push_size, Option.map_some]

theorem next?_insert (bare : state.transitions = ∅) :
    (automaton.insert state).automaton.next? id c = automaton.next? id c := by
  unfold next?
  by_cases inside : id < automaton.size
  · rw [state?_insert inside]
  -- beyond the old states there is at most the new one
  · have outside : automaton.state? id = none := Array.getElem?_eq_none (Nat.le_of_not_lt inside)
    rw [outside]
    unfold insert
    split
    · rw [outside]
    · change (automaton.states.push state)[id]?.bind _ = none
      rw [Array.getElem?_push]
      split
      · simp [bare]
      · change (automaton.state? id).bind _ = none
        rw [outside, Option.bind_none]

/-! ## Changing a state in place -/

theorem state?_of_lt (inside : id < automaton.size) : ∃ state, automaton.state? id = some state :=
  ⟨_, Array.getElem?_eq_getElem inside⟩

variable {change : State → State}

theorem update?_of_lt (inside : id < automaton.size) :
    automaton.update? id change = some ⟨automaton.states.modify id change⟩ :=
  if_pos inside

theorem update?_of_le (outside : automaton.size ≤ id) : automaton.update? id change = none :=
  if_neg (Nat.not_lt.mpr outside)

theorem state?_modify :
    (Dfa.mk (automaton.states.modify source change)).state? id =
      (automaton.state? id).map fun state => if source = id then change state else state := by
  change (automaton.states.modify source change)[id]? = _
  rw [Array.getElem?_modify]
  split
  · rfl
  · simp [state?]

/-! ## Drawing a transition -/

/-- The automaton with one more transition, where both ends exist. -/
def linked (automaton : Dfa) (source : Nat) (c : Char) (target : Nat) : Dfa :=
  ⟨automaton.states.modify source (·.connect c target)⟩

theorem connect_eq_ok (here : source < automaton.size) (there : target < automaton.size) :
    automaton.connect source c target = .ok (automaton.linked source c target) := by
  rw [connect, if_pos there, update?_of_lt here]
  rfl

theorem state?_linked :
    (automaton.linked source c target).state? id =
      (automaton.state? id).map fun state => if source = id then state.connect c target else state :=
  state?_modify

theorem sets_linked : (automaton.linked source c target).sets = automaton.sets := by
  apply List.ext_getElem?
  intro id
  rw [getElem?_sets, getElem?_sets, state?_linked, Option.map_map]
  congr 1
  funext state
  simp only [Function.comp_apply]
  split <;> rfl

theorem isAccepting_linked :
    (automaton.linked source c target).isAccepting id = automaton.isAccepting id := by
  rw [isAccepting, isAccepting, state?_linked, Option.any_map]
  congr 1
  funext state
  split <;> rfl

theorem next?_linked_self (here : source < automaton.size) :
    (automaton.linked source c target).next? source c = some target := by
  have found : automaton.state? source = some automaton.states[source] :=
    Array.getElem?_eq_getElem here
  simp [next?, state?_linked, found, State.connect]

theorem next?_linked_of_ne (other : ¬(source = id ∧ c = d)) :
    (automaton.linked source c target).next? id d = automaton.next? id d := by
  cases found : automaton.state? id with
  | none => simp [next?, state?_linked, found]
  | some state =>
    by_cases here : source = id
    · have apart : c ≠ d := fun same => other ⟨here, same⟩
      simp [next?, state?_linked, found, here, State.connect, Std.ExtTreeMap.getElem?_insert, apart]
    · simp [next?, state?_linked, found, here]

end Dfa

end PatternAutomata
