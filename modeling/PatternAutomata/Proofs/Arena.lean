import PatternAutomata.Nfa.Combinators
import PatternAutomata.Nfa.Path

/-! The states and edges of combined automata.

Drawing an edge adds that edge and nothing else, and adopting an automaton adds
its edges with both ends renumbered. Every building step keeps states numbered
by their place, edges inside, and the accepting flag on one state.
-/

set_option autoImplicit false

namespace PatternAutomata

namespace Nfa

variable {automaton first second : Nfa} {id source target near far offset : Nat}
  {label mark : Option Char} {accepting : Bool} {pairs : List (Nat × Nat)}

/-! ## Sizes -/

@[simp] theorem size_link : (automaton.link source label target).size = automaton.size := by
  simp [size, link]

@[simp] theorem size_linkAll : (automaton.linkAll pairs).size = automaton.size := by
  unfold linkAll
  induction pairs generalizing automaton with
  | nil => rfl
  | cons pair rest ih => rw [List.foldl_cons, ih, size_link]

@[simp] theorem size_flag : (automaton.flag id accepting).size = automaton.size := by
  simp [size, flag]

@[simp] theorem size_moveAccept : (automaton.moveAccept id).size = automaton.size :=
  size_flag.trans size_flag

@[simp] theorem size_adopt : (first.adopt second).size = first.size + second.size := by
  simp [size, adopt]

/-- The automaton with the two states of `enclose` added, before it accepts elsewhere. -/
def widen (automaton : Nfa) : Nfa where
  states := (automaton.states.push { id := automaton.size }).push { id := automaton.size + 1 }
  start := automaton.size
  accept := automaton.accept

@[simp] theorem size_widen : automaton.widen.size = automaton.size + 2 := by
  simp [size, widen]

@[simp] theorem size_enclose : automaton.enclose.size = automaton.size + 2 :=
  size_moveAccept.trans size_widen

/-! ## Start and accept states -/

@[simp] theorem start_link : (automaton.link source label target).start = automaton.start := rfl

@[simp] theorem start_moveAccept : (automaton.moveAccept id).start = automaton.start := rfl

@[simp] theorem start_adopt : (first.adopt second).start = first.start := rfl

@[simp] theorem accept_moveAccept : (automaton.moveAccept id).accept = id := rfl

@[simp] theorem start_enclose : automaton.enclose.start = automaton.size := rfl

@[simp] theorem accept_enclose : automaton.enclose.accept = automaton.size + 1 := rfl

@[simp] theorem start_linkAll : (automaton.linkAll pairs).start = automaton.start := by
  unfold linkAll
  induction pairs generalizing automaton with
  | nil => rfl
  | cons pair rest ih => exact ih

@[simp] theorem accept_linkAll : (automaton.linkAll pairs).accept = automaton.accept := by
  unfold linkAll
  induction pairs generalizing automaton with
  | nil => rfl
  | cons pair rest ih => exact ih

/-! ## States -/

theorem eq_of_state? (start : first.start = second.start) (accept : first.accept = second.accept)
    (states : ∀ id, first.state? id = second.state? id) : first = second := by
  cases first
  cases second
  simp only [mk.injEq]
  exact ⟨Array.ext_getElem? states, start, accept⟩

theorem state?_link :
    (automaton.link source label target).state? id =
      if source = id then
        (automaton.state? id).map fun state => { state with edges := state.edges ++ [⟨label, target⟩] }
      else automaton.state? id := by
  simp only [state?, link, Array.getElem?_modify]

theorem state?_flag :
    (automaton.flag target accepting).state? id =
      if target = id then (automaton.state? id).map fun state => { state with accepting }
      else automaton.state? id := by
  simp only [state?, flag, Array.getElem?_modify]

theorem state?_moveAccept :
    (automaton.moveAccept target).state? id =
      if target = id then (automaton.state? id).map fun state => { state with accepting := true }
      else if automaton.accept = id then
        (automaton.state? id).map fun state => { state with accepting := false }
      else automaton.state? id := by
  change ((automaton.flag automaton.accept false).flag target true).state? id = _
  rw [state?_flag, state?_flag]
  split
  · split
    · cases automaton.state? id <;> rfl
    · rfl
  · rfl

/-- A state of the automaton with one more edge, and the state it was before. -/
theorem origin_link {state : State}
    (found : (automaton.link source label target).state? id = some state) :
    ∃ origin, automaton.state? id = some origin ∧ state.id = origin.id ∧
      state.accepting = origin.accepting := by
  rw [state?_link] at found
  split at found
  · obtain ⟨origin, known, rfl⟩ := Option.map_eq_some_iff.mp found
    exact ⟨origin, known, rfl, rfl⟩
  · exact ⟨state, found, rfl, rfl⟩

theorem origin_moveAccept {state : State}
    (found : (automaton.moveAccept target).state? id = some state) :
    ∃ origin, automaton.state? id = some origin ∧ state.id = origin.id ∧
      state.accepting = if target = id then true
        else if automaton.accept = id then false else origin.accepting := by
  rw [state?_moveAccept] at found
  split at found
  · obtain ⟨origin, known, rfl⟩ := Option.map_eq_some_iff.mp found
    exact ⟨origin, known, rfl, by simp [*]⟩
  · split at found
    · obtain ⟨origin, known, rfl⟩ := Option.map_eq_some_iff.mp found
      exact ⟨origin, known, rfl, by simp [*]⟩
    · exact ⟨state, found, rfl, by simp [*]⟩

theorem state?_adopt :
    (first.adopt second).state? id =
      if id < first.size then first.state? id
      else (second.state? (id - first.size)).map (·.shift first.size) := by
  simp only [state?, adopt, size, Array.getElem?_append, Array.getElem?_map]
  rfl

theorem state?_widen :
    automaton.widen.state? id =
      if id = automaton.size then some { id }
      else if id = automaton.size + 1 then some { id }
      else automaton.state? id := by
  simp only [state?, widen, size, Array.getElem?_push, Array.size_push]
  by_cases entry : id = automaton.states.size
  · simp [entry]
  · by_cases exit : id = automaton.states.size + 1 <;> simp [entry, exit]

theorem state?_eq_none_iff : automaton.state? id = none ↔ automaton.size ≤ id :=
  Array.getElem?_eq_none_iff

/-! ## Edges -/

theorem hasEdge_link :
    (automaton.link source label target).HasEdge near mark far ↔
      automaton.HasEdge near mark far ∨
        near = source ∧ mark = label ∧ far = target ∧ source < automaton.size := by
  unfold HasEdge
  rw [state?_link]
  by_cases same : source = near
  · subst same
    cases found : automaton.state? source with
    | none =>
      have outside : ¬source < automaton.size := Nat.not_lt.mpr (state?_eq_none_iff.mp found)
      simp [outside]
    | some state =>
      have inside : source < automaton.size := by
        apply Nat.lt_of_not_le
        intro outside
        rw [state?_eq_none_iff.mpr outside] at found
        cases found
      simp [inside]
  · have other : ¬near = source := fun equal => same equal.symm
    simp [same, other]

theorem hasEdge_linkAll :
    (automaton.linkAll pairs).HasEdge near mark far ↔
      automaton.HasEdge near mark far ∨
        mark = none ∧ (near, far) ∈ pairs ∧ near < automaton.size := by
  unfold linkAll
  induction pairs generalizing automaton with
  | nil => simp
  | cons pair rest ih =>
    rw [List.foldl_cons, ih, hasEdge_link, size_link]
    simp only [List.mem_cons, Prod.ext_iff]
    constructor
    · intro edge
      obtain (old | ⟨rfl, rfl, rfl, inside⟩) | ⟨silent, member, inside⟩ := edge
      · exact .inl old
      · exact .inr ⟨rfl, .inl ⟨rfl, rfl⟩, inside⟩
      · exact .inr ⟨silent, .inr member, inside⟩
    · intro edge
      obtain old | ⟨silent, ⟨rfl, rfl⟩ | member, inside⟩ := edge
      · exact .inl (.inl old)
      · exact .inl (.inr ⟨rfl, silent, rfl, inside⟩)
      · exact .inr ⟨silent, member, inside⟩

theorem hasEdge_flag :
    (automaton.flag id accepting).HasEdge near mark far ↔ automaton.HasEdge near mark far := by
  unfold HasEdge
  rw [state?_flag]
  split
  · cases automaton.state? near <;> simp
  · rfl

theorem hasEdge_moveAccept :
    (automaton.moveAccept id).HasEdge near mark far ↔ automaton.HasEdge near mark far :=
  hasEdge_flag.trans hasEdge_flag

theorem hasEdge_adopt :
    (first.adopt second).HasEdge near mark far ↔
      first.HasEdge near mark far ∨
        ∃ source target, second.HasEdge source mark target ∧
          near = source + first.size ∧ far = target + first.size := by
  unfold HasEdge
  rw [state?_adopt]
  by_cases old : near < first.size
  · rw [if_pos old]
    constructor
    · exact Or.inl
    · intro edge
      obtain edge | ⟨source, _, _, same, _⟩ := edge
      · exact edge
      · omega
  · rw [if_neg old]
    constructor
    · intro ⟨state, found, member⟩
      obtain ⟨origin, known, rfl⟩ := Option.map_eq_some_iff.mp found
      obtain ⟨edge, drawn, same⟩ := List.mem_map.mp member
      obtain ⟨rfl, rfl⟩ := Edge.mk.inj same
      exact Or.inr ⟨_, edge.target, ⟨origin, known, drawn⟩, by omega, rfl⟩
    · intro edge
      obtain ⟨state, found, _⟩ | ⟨source, target, ⟨state, found, member⟩, rfl, rfl⟩ := edge
      · rw [state?_eq_none_iff.mpr (Nat.not_lt.mp old)] at found
        cases found
      · rw [Nat.add_sub_cancel, found]
        exact ⟨_, rfl, List.mem_map.mpr ⟨_, member, rfl⟩⟩

theorem hasEdge_widen :
    automaton.widen.HasEdge near mark far ↔ automaton.HasEdge near mark far := by
  unfold HasEdge
  rw [state?_widen]
  by_cases old : near < automaton.size
  · have entry : near ≠ automaton.size := by omega
    have exit : near ≠ automaton.size + 1 := by omega
    rw [if_neg entry, if_neg exit]
  · rw [state?_eq_none_iff.mpr (Nat.not_lt.mp old)]
    split
    · simp
    · split <;> simp

theorem hasEdge_enclose :
    automaton.enclose.HasEdge near mark far ↔ automaton.HasEdge near mark far :=
  hasEdge_moveAccept.trans hasEdge_widen

/-! ## Well-formedness -/

theorem WellFormed.link (formed : automaton.WellFormed) (inside : target < automaton.size) :
    (automaton.link source label target).WellFormed where
  start_lt := size_link.symm ▸ formed.start_lt
  accept_lt := size_link.symm ▸ formed.accept_lt
  id_eq := by
    intro place state found
    obtain ⟨origin, known, same, _⟩ := origin_link found
    rw [same, formed.id_eq known]
  target_lt := by
    intro near far mark edge
    rw [size_link]
    obtain old | ⟨_, _, rfl, _⟩ := hasEdge_link.mp edge
    · exact formed.target_lt old
    · exact inside
  accepting_iff := by
    intro place state found
    obtain ⟨origin, known, _, flag⟩ := origin_link found
    rw [flag]
    exact formed.accepting_iff known

theorem WellFormed.linkAll (formed : automaton.WellFormed)
    (inside : ∀ pair ∈ pairs, pair.2 < automaton.size) : (automaton.linkAll pairs).WellFormed := by
  unfold Nfa.linkAll
  induction pairs generalizing automaton with
  | nil => exact formed
  | cons pair rest ih =>
    apply ih (formed.link (inside pair List.mem_cons_self))
    intro other member
    rw [size_link]
    exact inside other (List.mem_cons_of_mem _ member)

theorem WellFormed.moveAccept (formed : automaton.WellFormed) (inside : id < automaton.size) :
    (automaton.moveAccept id).WellFormed where
  start_lt := size_moveAccept.symm ▸ formed.start_lt
  accept_lt := size_moveAccept.symm ▸ inside
  id_eq := by
    intro place state found
    obtain ⟨origin, known, same, _⟩ := origin_moveAccept found
    rw [same, formed.id_eq known]
  target_lt := by
    intro near far mark edge
    rw [size_moveAccept]
    exact formed.target_lt (hasEdge_moveAccept.mp edge)
  accepting_iff := by
    intro place state found
    change state.accepting = true ↔ place = id
    obtain ⟨origin, known, _, flag⟩ := origin_moveAccept found
    rw [flag]
    by_cases here : id = place
    · simp [here]
    · have elsewhere : ¬place = id := fun same => here same.symm
      -- the old accept state lost its flag, and no other state had one
      by_cases old : automaton.accept = place
      · simp [here, elsewhere, old]
      · have other : ¬origin.accepting = true := fun flagged =>
          old ((formed.accepting_iff known).mp flagged).symm
        simp [here, elsewhere, old, other]

theorem WellFormed.adopt (left : first.WellFormed) (right : second.WellFormed) :
    (first.adopt second).WellFormed where
  start_lt := by
    have inside := left.start_lt
    rw [size_adopt]
    exact Nat.lt_add_right _ inside
  accept_lt := by
    have inside := left.accept_lt
    rw [size_adopt]
    exact Nat.lt_add_right _ inside
  id_eq := by
    intro place state found
    rw [state?_adopt] at found
    split at found
    · exact left.id_eq found
    · obtain ⟨origin, known, rfl⟩ := Option.map_eq_some_iff.mp found
      have same := right.id_eq known
      change origin.id + first.size = place
      omega
  target_lt := by
    intro near far mark edge
    rw [size_adopt]
    rcases hasEdge_adopt.mp edge with old | ⟨_, target, moved, rfl, rfl⟩
    · exact Nat.lt_add_right _ (left.target_lt old)
    · have inside := right.target_lt moved
      omega
  accepting_iff := by
    intro place state found
    have inside := left.accept_lt
    change state.accepting = true ↔ place = first.accept
    rw [state?_adopt] at found
    split at found
    · exact left.accepting_iff found
    · obtain ⟨origin, known, rfl⟩ := Option.map_eq_some_iff.mp found
      have other : place ≠ first.accept := by omega
      simp [State.shift, other]

theorem WellFormed.widen (formed : automaton.WellFormed) : automaton.widen.WellFormed where
  start_lt := by
    rw [size_widen]
    exact Nat.lt_add_of_pos_right (by decide)
  accept_lt := by
    have inside := formed.accept_lt
    rw [size_widen]
    exact Nat.lt_add_right _ inside
  id_eq := by
    intro place state found
    rw [state?_widen] at found
    split at found
    · cases found
      rfl
    · split at found
      · cases found
        rfl
      · exact formed.id_eq found
  target_lt := by
    intro near far mark edge
    rw [size_widen]
    exact Nat.lt_add_right _ (formed.target_lt (hasEdge_widen.mp edge))
  accepting_iff := by
    intro place state found
    have inside := formed.accept_lt
    change state.accepting = true ↔ place = automaton.accept
    rw [state?_widen] at found
    split at found
    · cases found
      simp
      omega
    · split at found
      · cases found
        simp
        omega
      · exact formed.accepting_iff found

theorem WellFormed.enclose (formed : automaton.WellFormed) : automaton.enclose.WellFormed := by
  apply formed.widen.moveAccept
  rw [size_widen]
  omega

theorem hasEdge_literal {c : Char} :
    (literal c).HasEdge near mark far ↔ near = 0 ∧ mark = some c ∧ far = 1 := by
  unfold HasEdge state? literal
  match near with
  | 0 => simp
  | 1 => simp
  | _ + 2 => simp

theorem not_hasEdge_empty : ¬empty.HasEdge near mark far := by
  unfold HasEdge state? empty
  match near with
  | 0 => simp
  | _ + 1 => simp

theorem wellFormed_literal {c : Char} : (literal c).WellFormed where
  start_lt := Nat.zero_lt_two
  accept_lt := Nat.one_lt_two
  id_eq := by
    intro place state found
    match place, found with
    | 0, rfl => rfl
    | 1, rfl => rfl
  target_lt := by
    intro near far mark edge
    obtain ⟨_, _, rfl⟩ := hasEdge_literal.mp edge
    exact Nat.one_lt_two
  accepting_iff := by
    intro place state found
    match place, found with
    | 0, rfl => simp [literal]
    | 1, rfl => simp [literal]

theorem wellFormed_empty : empty.WellFormed where
  start_lt := Nat.one_pos
  accept_lt := Nat.one_pos
  id_eq := by
    intro place state found
    match place, found with
    | 0, rfl => rfl
  target_lt := fun edge => absurd edge not_hasEdge_empty
  accepting_iff := by
    intro place state found
    match place, found with
    | 0, rfl => simp [empty]

theorem WellFormed.concat (left : first.WellFormed) (right : second.WellFormed) :
    (first.concat second).WellFormed := by
  have entry := right.start_lt
  have exit := right.accept_lt
  apply ((left.adopt right).link _).moveAccept
  · rw [size_link, size_adopt]
    omega
  · rw [size_adopt]
    omega

theorem WellFormed.enclosed (formed : automaton.WellFormed)
    (inside : ∀ pair ∈ pairs, pair.2 < automaton.size + 2) :
    (automaton.enclose.linkAll pairs).WellFormed := by
  apply formed.enclose.linkAll
  rw [size_enclose]
  exact inside

theorem WellFormed.union (left : first.WellFormed) (right : second.WellFormed) :
    (first.union second).WellFormed := by
  have entry := left.start_lt
  have other := right.start_lt
  apply (left.adopt right).enclosed
  simp
  omega

theorem WellFormed.star (formed : automaton.WellFormed) : automaton.star.WellFormed := by
  have entry := formed.start_lt
  apply formed.enclosed
  simp
  omega

theorem WellFormed.optional (formed : automaton.WellFormed) : automaton.optional.WellFormed := by
  have entry := formed.start_lt
  apply formed.enclosed
  simp
  omega

theorem WellFormed.plus (formed : automaton.WellFormed) : automaton.plus.WellFormed := by
  have entry := formed.start_lt
  apply formed.enclosed
  simp
  omega

theorem WellFormed.joined (left : first.WellFormed) (right : second.WellFormed) (how : Connective) :
    (Nfa.joined how first second).WellFormed := by
  cases how with
  | concat => exact left.concat right
  | union => exact left.union right

theorem WellFormed.repeated (formed : automaton.WellFormed) (how : Quantifier) :
    (Nfa.repeated how automaton).WellFormed := by
  cases how with
  | star => exact formed.star
  | plus => exact formed.plus
  | optional => exact formed.optional

end Nfa

theorem Expr.wellFormed_toNfa (e : Expr) : e.toNfa.WellFormed := by
  induction e with
  | literal c => exact Nfa.wellFormed_literal
  | joined how _ _ left right => exact left.joined right how
  | repeated how _ body => exact body.repeated how

end PatternAutomata
