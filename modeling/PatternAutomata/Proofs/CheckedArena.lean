import PatternAutomata.Nfa.Checked
import PatternAutomata.Proofs.Arena
import PatternAutomata.Proofs.Closure

/-! In a well-formed automaton no access goes astray.

A building step only asks for states of its operands and for those it adds, and
a search only for states that edges lead to. So every check is passed, and the
checked functions give what their namesakes give.
-/

set_option autoImplicit false

namespace PatternAutomata

namespace Nfa

variable {automaton left right : Nfa} {id source target : Nat} {label : Option Char}
  {accepting : Bool} {pairs : List (Nat × Nat)}

theorem link?_eq_some (inside : source < automaton.size) :
    automaton.link? source label target = some (automaton.link source label target) :=
  if_pos inside

theorem flag?_eq_some (inside : id < automaton.size) :
    automaton.flag? id accepting = some (automaton.flag id accepting) :=
  if_pos inside

theorem linkAll?_eq_some (inside : ∀ pair ∈ pairs, pair.1 < automaton.size) :
    automaton.linkAll? pairs = some (automaton.linkAll pairs) := by
  induction pairs generalizing automaton with
  | nil => rfl
  | cons pair rest ih =>
    have first : automaton.link? pair.1 none pair.2 = some (automaton.link pair.1 none pair.2) :=
      link?_eq_some (inside pair List.mem_cons_self)
    have later : ∀ other ∈ rest, other.1 < (automaton.link pair.1 none pair.2).size := by
      intro other member
      rw [size_link]
      exact inside other (List.mem_cons_of_mem _ member)
    simp only [linkAll?, List.foldlM_cons, first]
    exact ih later

theorem moveAccept?_eq_some (before : automaton.accept < automaton.size)
    (inside : id < automaton.size) :
    automaton.moveAccept? id = some (automaton.moveAccept id) := by
  have kept : id < (automaton.flag automaton.accept false).size := size_flag.symm ▸ inside
  simp only [moveAccept?, flag?_eq_some before, Option.bind_eq_bind, Option.bind_some,
    flag?_eq_some kept]
  rfl

theorem extend_extend (automaton : Nfa) :
    { automaton.extend.extend with start := automaton.size } = automaton.widen := by
  simp [extend, widen, size]

theorem enclose?_eq_some (before : automaton.accept < automaton.size) :
    automaton.enclose? = some automaton.enclose := by
  have exit : automaton.widen.accept < automaton.widen.size := by
    rw [size_widen]
    exact Nat.lt_add_right _ before
  have fresh : automaton.size + 1 < automaton.widen.size := by simp
  rw [enclose?, extend_extend]
  exact moveAccept?_eq_some exit fresh

theorem empty?_eq_some : empty? = some empty := rfl

theorem literal?_eq_some (c : Char) : literal? c = some (literal c) := rfl

theorem linkAround?_eq_some {pairs : Nfa → List (Nat × Nat)}
    (before : automaton.accept < automaton.size)
    (inside : ∀ pair ∈ pairs automaton.enclose, pair.1 < automaton.size + 2) :
    automaton.linkAround? pairs = some (automaton.enclose.linkAll (pairs automaton.enclose)) := by
  simp only [linkAround?, enclose?_eq_some before, Option.bind_eq_bind, Option.bind_some]
  apply linkAll?_eq_some
  rwa [size_enclose]

theorem WellFormed.concat?_eq_some (first : left.WellFormed) (second : right.WellFormed) :
    left.concat? right = some (left.concat right) := by
  have exit := first.accept_lt
  have other := second.accept_lt
  have linked : left.accept < (left.adopt right).size := by
    simp
    omega
  simp only [concat?, link?_eq_some linked, Option.bind_eq_bind, Option.bind_some]
  apply moveAccept?_eq_some
  · rw [size_link]
    exact linked
  · simp
    omega

theorem WellFormed.union?_eq_some (first : left.WellFormed) (second : right.WellFormed) :
    left.union? right = some (left.union right) := by
  have entry := first.start_lt
  have exit := first.accept_lt
  have other := second.accept_lt
  apply linkAround?_eq_some (first.adopt second).accept_lt
  simp
  omega

theorem WellFormed.joined?_eq_some (first : left.WellFormed) (second : right.WellFormed)
    (how : Connective) : joined? how left right = some (Nfa.joined how left right) := by
  cases how with
  | concat => exact first.concat?_eq_some second
  | union => exact first.union?_eq_some second

theorem WellFormed.repeated?_eq_some (formed : automaton.WellFormed) (how : Quantifier) :
    repeated? how automaton = some (Nfa.repeated how automaton) := by
  have exit := formed.accept_lt
  cases how
  all_goals
    apply linkAround?_eq_some exit
    simp
    omega

/-! ## The search along silent edges -/

def Confined (automaton : Nfa) : Prop :=
  ∀ source label target, automaton.HasEdge source label target → target < automaton.size

theorem WellFormed.confined (formed : automaton.WellFormed) : automaton.Confined :=
  fun _ _ _ => formed.target_lt

/-- What holds whenever the next number is taken from the queue: no successor of a number that left
the queue was forgotten, and nothing is noted that silent paths do not reach. -/
structure Search.Sound (automaton : Nfa) (ids : List Nat) (search : Search) : Prop where
  given : ∀ id ∈ ids, id < automaton.size → id ∈ search.noted
  queued : ∀ id ∈ search.queue, id ∈ search.noted
  reached : ∀ id ∈ search.noted, ∃ source ∈ ids, automaton.Path source [] id
  followed : ∀ id ∈ search.noted, id ∈ search.queue ∨
    ∀ target, automaton.HasEdge id none target → target ∈ search.noted

namespace Search

variable {search : Search} {ids queue : List Nat} {noted : StateSet} {state : State}

theorem mem_queue_note {other : Nat} :
    other ∈ (search.note id).queue ↔ other ∈ search.queue ∨ other = id ∧ id ∉ search.noted := by
  by_cases known : id ∈ search.noted <;> simp [note, known]

theorem mem_queue_noteAll :
    id ∈ (search.noteAll ids).queue ↔ id ∈ search.queue ∨ id ∈ ids ∧ id ∉ search.noted := by
  induction ids generalizing search with
  | nil => simp [noteAll]
  | cons head rest ih =>
    change id ∈ ((search.note head).noteAll rest).queue ↔ _
    rw [ih, mem_queue_note, mem_noted_note, List.mem_cons]
    by_cases same : id = head
    · subst same
      simp
    · simp [same]

namespace Sound

theorem start : Sound automaton ids (noteAll ⟨∅, []⟩ (ids.filter (· < automaton.size))) where
  given := by
    intro id member inside
    simp [member, inside]
  queued := by
    intro id waits
    simpa [mem_queue_noteAll] using waits
  reached := by
    intro id noted
    simp only [mem_noted_noteAll, Std.ExtTreeSet.not_mem_empty, false_or, List.mem_filter,
      decide_eq_true_eq] at noted
    exact ⟨id, noted.1, .here noted.2⟩
  followed := by
    intro id noted
    left
    simpa [mem_queue_noteAll] using noted

theorem noted_lt (sound : Sound automaton ids search) : ∀ id ∈ search.noted, id < automaton.size := by
  intro id noted
  obtain ⟨source, _, path⟩ := sound.reached id noted
  exact path.target_lt

theorem visit (sound : Sound automaton ids ⟨noted, id :: queue⟩) (confined : automaton.Confined)
    (found : automaton.state? id = some state) :
    Sound automaton ids (noteAll ⟨noted, queue⟩ (state.targets none)) where
  given := by
    intro source member inside
    exact mem_noted_noteAll.mpr (Or.inl (sound.given source member inside))
  queued := by
    intro other waits
    rcases mem_queue_noteAll.mp waits with old | ⟨new, _⟩
    · exact mem_noted_noteAll.mpr (Or.inl (sound.queued other (List.mem_cons_of_mem _ old)))
    · exact mem_noted_noteAll.mpr (Or.inr new)
  reached := by
    intro other noted
    rcases mem_noted_noteAll.mp noted with old | new
    · exact sound.reached other old
    · have edge : automaton.HasEdge id none other := by
        rw [← mem_targets_iff, targets, found]
        exact new
      obtain ⟨source, member, path⟩ := sound.reached id (sound.queued id List.mem_cons_self)
      exact ⟨source, member, path.append (.silent edge (.here (confined _ _ _ edge)))⟩
  followed := by
    intro other member
    by_cases old : other ∈ noted
    · rcases sound.followed other old with waits | done
      · rcases List.mem_cons.mp waits with rfl | waits
        -- the number taken from the queue is the one that has just been followed
        · right
          intro target edge
          rw [← mem_targets_iff, targets, found] at edge
          exact mem_noted_noteAll.mpr (Or.inr edge)
        · exact Or.inl (mem_queue_noteAll.mpr (Or.inl waits))
      · exact Or.inr fun target edge => mem_noted_noteAll.mpr (Or.inl (done target edge))
    · have new := (mem_noted_noteAll.mp member).resolve_left old
      exact Or.inl (mem_queue_noteAll.mpr (Or.inr ⟨new, old⟩))

/-- When the queue is empty, the noted numbers are those that silent paths reach. -/
theorem noted_eq_closure (sound : Sound automaton ids ⟨noted, []⟩) :
    noted = automaton.closure ids := by
  apply Std.ExtTreeSet.ext_mem
  intro target
  rw [mem_closure_iff]
  constructor
  · exact sound.reached target
  · intro ⟨source, member, path⟩
    have start : source ∈ noted := sound.given source member path.source_lt
    clear member
    generalize quiet : ([] : List Char) = text at path
    induction path with
    | here _ => exact start
    | silent edge _ ih =>
      have next := (sound.followed _ start).resolve_left List.not_mem_nil _ edge
      exact ih next quiet
    | read _ _ _ => cases quiet

theorem run?_eq_some (confined : automaton.Confined) (sound : Sound automaton ids search) :
    run? automaton search = some (automaton.closure ids) := by
  fun_induction run? automaton search with
  | case1 search finished =>
    obtain ⟨noted, _⟩ := search
    subst finished
    rw [← sound.noted_eq_closure]
  | case2 search id queue waits missing =>
    have inside := sound.noted_lt id (sound.queued id (waits ▸ List.mem_cons_self))
    exact absurd inside (Nat.not_lt.mpr (state?_eq_none_iff.mp missing))
  | case3 search id queue waits state found ih =>
    obtain ⟨noted, _⟩ := search
    subst waits
    exact ih (sound.visit confined found)

end Sound

end Search

/-- No number that the search follows is without a state. -/
theorem Confined.closure?_eq_some (confined : automaton.Confined) (ids : List Nat) :
    automaton.closure? ids = some (automaton.closure ids) :=
  Search.Sound.start.run?_eq_some confined

theorem WellFormed.closure?_eq_some (formed : automaton.WellFormed) (ids : List Nat) :
    automaton.closure? ids = some (automaton.closure ids) :=
  formed.confined.closure?_eq_some ids

end Nfa

end PatternAutomata
