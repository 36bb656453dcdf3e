import PatternAutomata.Proofs.LanguageOperations

/-! Where combined automata keep the edges of their parts.

In a well-formed automaton a state holds nothing of its own but the edges that
leave it, in the order they were drawn. Building steps append to these lists,
so the parts can be read off again once it is known where they begin and end.
-/

set_option autoImplicit false

namespace PatternAutomata

namespace Nfa

variable {automaton left right body other first second third : Nfa} {id source target : Nat}
  {label : Option Char} {pairs : List (Nat × Nat)}

def Edge.shift (edge : Edge) (offset : Nat) : Edge := { edge with target := edge.target + offset }

def leaving (automaton : Nfa) (id : Nat) : List Edge :=
  ((automaton.state? id).map (·.edges)).getD []

theorem leaving_eq_nil (outside : automaton.size ≤ id) : automaton.leaving id = [] := by
  rw [leaving, state?_eq_none_iff.mpr outside]
  rfl

/-- A well-formed automaton is known from the edges that leave its states. -/
theorem WellFormed.ext (one : left.WellFormed) (two : right.WellFormed) (size : left.size = right.size)
    (start : left.start = right.start) (accept : left.accept = right.accept)
    (edges : ∀ id, left.leaving id = right.leaving id) : left = right := by
  refine eq_of_state? start accept fun id => ?_
  have same := edges id
  rcases Nat.lt_or_ge id left.size with here | outside
  · have there : id < right.size := size ▸ here
    obtain ⟨old, found⟩ : ∃ old, left.state? id = some old := ⟨_, Array.getElem?_eq_getElem here⟩
    obtain ⟨new, known⟩ : ∃ new, right.state? id = some new := ⟨_, Array.getElem?_eq_getElem there⟩
    have number : old.id = new.id := (one.id_eq found).trans (two.id_eq known).symm
    have flag : old.accepting = new.accepting := by
      rw [Bool.eq_iff_iff, one.accepting_iff found, two.accepting_iff known, accept]
    simp only [leaving, found, known, Option.map_some, Option.getD_some] at same
    cases old
    cases new
    simp_all
  · rw [state?_eq_none_iff.mpr outside, state?_eq_none_iff.mpr (size ▸ outside)]

/-! ## Building steps -/

theorem leaving_link (inside : source < automaton.size) :
    (automaton.link source label target).leaving id =
      automaton.leaving id ++ if source = id then [⟨label, target⟩] else [] := by
  simp only [leaving, state?_link]
  split
  · rename_i same
    subst same
    rw [state?, Array.getElem?_eq_getElem inside]
    rfl
  · rw [List.append_nil]

theorem leaving_linkAll (inside : ∀ pair ∈ pairs, pair.1 < automaton.size) :
    (automaton.linkAll pairs).leaving id =
      automaton.leaving id ++ (pairs.filter (·.1 = id)).map fun pair => ⟨none, pair.2⟩ := by
  unfold linkAll
  -- the edges are drawn one by one, so the automaton stays open
  induction pairs generalizing automaton with
  | nil => exact (List.append_nil _).symm
  | cons pair rest ih =>
    obtain ⟨here, later⟩ := List.forall_mem_cons.mp inside
    have kept : ∀ next ∈ rest, next.1 < (automaton.link pair.1 none pair.2).size := by
      simpa only [size_link] using later
    rw [List.foldl_cons, ih kept, leaving_link here, List.append_assoc]
    by_cases same : pair.1 = id
    · simp [same]
    · simp [same]

theorem leaving_moveAccept : (automaton.moveAccept target).leaving id = automaton.leaving id := by
  simp only [leaving, state?_moveAccept]
  split
  · cases automaton.state? id <;> rfl
  · split
    · cases automaton.state? id <;> rfl
    · rfl

theorem leaving_adopt :
    (left.adopt right).leaving id =
      if id < left.size then left.leaving id
      else (right.leaving (id - left.size)).map (·.shift left.size) := by
  simp only [leaving, state?_adopt]
  split
  · rfl
  · cases right.state? (id - left.size) <;> rfl

theorem leaving_enclose : body.enclose.leaving id = body.leaving id := by
  change (body.widen.moveAccept (body.size + 1)).leaving id = _
  rw [leaving_moveAccept, leaving, state?_widen]
  split
  · rename_i entry
    exact (leaving_eq_nil entry.ge).symm
  · split
    · rename_i exit
      exact (leaving_eq_nil (exit ▸ Nat.le_succ _)).symm
    · rfl

theorem leaving_concat (one : left.WellFormed) (two : right.WellFormed) :
    (left.concat right).leaving id =
      (left.adopt right).leaving id ++
        if left.accept = id then [⟨none, right.start + left.size⟩] else [] := by
  rw [concat_eq, leaving_moveAccept]
  exact leaving_link (one.adopt two).accept_lt

theorem leaving_enclosed (inside : ∀ pair ∈ pairs, pair.1 < body.size + 2) :
    (body.enclose.linkAll pairs).leaving id =
      body.leaving id ++ (pairs.filter (·.1 = id)).map fun pair => ⟨none, pair.2⟩ := by
  rw [← @leaving_enclose body]
  apply leaving_linkAll
  simpa only [size_enclose] using inside

/-! ## Taking automata apart -/

theorem Edge.shift_shift (edge : Edge) (near far : Nat) :
    (edge.shift near).shift far = edge.shift (far + near) := by
  rw [Nat.add_comm far near]
  simp only [Edge.shift, Nat.add_assoc]

theorem Edge.shift_injective (offset : Nat) : Function.Injective (Edge.shift · offset) := by
  intro one two same
  cases one
  cases two
  simpa [Edge.shift] using same

theorem adopt_inj (one : left.WellFormed) (two : first.WellFormed) (behind : right.WellFormed)
    (follows : second.WellFormed) (size : left.size = first.size) (accept : left.accept = first.accept)
    (entry : right.start = second.start) (exit : right.accept = second.accept)
    (same : left.adopt right = first.adopt second) : left = first ∧ right = second := by
  have edges (id : Nat) : (left.adopt right).leaving id = (first.adopt second).leaving id :=
    congrArg (leaving · id) same
  have total : (left.adopt right).size = (first.adopt second).size := congrArg Nfa.size same
  have start : (left.adopt right).start = (first.adopt second).start := congrArg Nfa.start same
  rw [size_adopt, size_adopt, size] at total
  constructor
  · apply one.ext two size start accept
    intro id
    by_cases inside : id < first.size
    · have here := edges id
      rwa [leaving_adopt, leaving_adopt, size, if_pos inside, if_pos inside] at here
    · rw [leaving_eq_nil (by omega), leaving_eq_nil (by omega)]
  · apply behind.ext follows (Nat.add_left_cancel total) entry exit
    intro id
    have there := edges (id + first.size)
    have outside : ¬id + first.size < first.size := by omega
    rw [leaving_adopt, leaving_adopt, size, if_neg outside, if_neg outside, Nat.add_sub_cancel] at there
    exact List.map_injective_iff.mpr (Edge.shift_injective _) there

theorem concat_inj (one : left.WellFormed) (two : first.WellFormed) (behind : right.WellFormed)
    (follows : second.WellFormed) (size : left.size = first.size) (accept : left.accept = first.accept)
    (same : left.concat right = first.concat second) : left = first ∧ right = second := by
  have edges (id : Nat) : (left.concat right).leaving id = (first.concat second).leaving id :=
    congrArg (leaving · id) same
  have total : (left.concat right).size = (first.concat second).size := congrArg Nfa.size same
  have exit : (left.concat right).accept = (first.concat second).accept := congrArg Nfa.accept same
  rw [accept_concat, accept_concat, size] at exit
  simp only [leaving_concat one behind, leaving_concat two follows, size, accept] at edges
  -- the edge that joins the parts is the last one drawn from the left accept state
  have joint := edges first.accept
  rw [if_pos rfl, if_pos rfl] at joint
  have link := (List.append_inj' joint rfl).2
  simp only [List.cons.injEq, Edge.mk.injEq, Nat.add_right_cancel_iff, true_and, and_true] at link
  have start : (left.concat right).start = (first.concat second).start := congrArg Nfa.start same
  rw [start_concat, start_concat] at start
  have parts : left.adopt right = first.adopt second := by
    apply (one.adopt behind).ext (two.adopt follows) _ start accept
    · intro id
      have drawn := edges id
      rw [link] at drawn
      exact List.append_cancel_right drawn
    · rwa [size_concat, size_concat, ← size_adopt, ← size_adopt] at total
  exact adopt_inj one two behind follows size accept link (Nat.add_right_cancel exit) parts

theorem enclosed_inj (one : body.WellFormed) (two : other.WellFormed) (start : body.start = other.start)
    (accept : body.accept = other.accept) (inside : ∀ pair ∈ pairs, pair.1 < body.size + 2)
    (same : body.enclose.linkAll pairs = other.enclose.linkAll pairs) : body = other := by
  have size : body.size = other.size := by
    have sizes : (body.enclose.linkAll pairs).size = (other.enclose.linkAll pairs).size :=
      congrArg Nfa.size same
    simpa only [size_linkAll, size_enclose, Nat.add_right_cancel_iff] using sizes
  apply one.ext two size start accept
  intro id
  have edges : (body.enclose.linkAll pairs).leaving id = (other.enclose.linkAll pairs).leaving id :=
    congrArg (leaving · id) same
  rw [leaving_enclosed inside, leaving_enclosed (size ▸ inside)] at edges
  exact List.append_cancel_right edges

/-! ## Regrouping -/

theorem concat_assoc (one : first.WellFormed) (two : second.WellFormed) (three : third.WellFormed) :
    (first.concat second).concat third = first.concat (second.concat third) := by
  apply ((one.concat two).concat three).ext (one.concat (two.concat three))
  · simp only [size_concat, Nat.add_assoc]
  · simp only [start_concat]
  · simp only [accept_concat, size_concat]
    omega
  · intro id
    have before := one.accept_lt
    have within := two.accept_lt
    simp only [leaving_concat (one.concat two) three, leaving_concat one (two.concat three),
      leaving_concat one two, leaving_concat two three, leaving_adopt, size_concat, accept_concat,
      start_concat]
    -- the state belongs to one of the three parts
    rcases Nat.lt_or_ge id first.size with here | past
    · have near : id < first.size + second.size := Nat.lt_add_right _ here
      have apart : second.accept + first.size ≠ id := by omega
      simp [here, near, apart]
    · obtain ⟨place, rfl⟩ := Nat.exists_eq_add_of_le' past
      have apart : first.accept ≠ place + first.size := by omega
      have outside : ¬place + first.size < first.size := by omega
      rcases Nat.lt_or_ge place second.size with here | beyond
      · have near : place + first.size < first.size + second.size := by omega
        by_cases last : second.accept = place
        · have joint : third.start + (first.size + second.size) =
              third.start + second.size + first.size := by omega
          simp [apart, outside, here, last, near, joint, Edge.shift]
        · simp [apart, outside, here, last, near]
      · have far : ¬place + first.size < first.size + second.size := by omega
        have inner : ¬place < second.size := by omega
        have last : second.accept ≠ place := by omega
        have index : place + first.size - (first.size + second.size) = place - second.size := by omega
        simp [apart, outside, far, inner, last, index, Edge.shift_shift]

end Nfa

end PatternAutomata
