import PatternAutomata.Nfa.Combinators
import PatternAutomata.Nfa.Simulation

/-! The building steps and the search along silent edges with every access checked.

Each function does what its namesake does, one access to a state after another,
and gives nothing as soon as it is asked for a state that does not exist.
-/

set_option autoImplicit false

namespace PatternAutomata

namespace Nfa

def needing (automaton : Nfa) (id : Nat) (outcome : Nfa) : Option Nfa :=
  if id < automaton.size then some outcome else none

def link? (automaton : Nfa) (source : Nat) (label : Option Char) (target : Nat) : Option Nfa :=
  automaton.needing source (automaton.link source label target)

def linkAll? (automaton : Nfa) (pairs : List (Nat × Nat)) : Option Nfa :=
  pairs.foldlM (fun automaton pair => automaton.link? pair.1 none pair.2) automaton

def flag? (automaton : Nfa) (id : Nat) (accepting : Bool) : Option Nfa :=
  automaton.needing id (automaton.flag id accepting)

def moveAccept? (automaton : Nfa) (id : Nat) : Option Nfa := do
  let cleared ← automaton.flag? automaton.accept false
  let flagged ← cleared.flag? id true
  return { flagged with accept := id }

def extend (automaton : Nfa) : Nfa :=
  { automaton with states := automaton.states.push { id := automaton.size } }

def enclose? (automaton : Nfa) : Option Nfa :=
  let fresh := automaton.size
  { automaton.extend.extend with start := fresh }.moveAccept? (fresh + 1)

def empty? : Option Nfa :=
  let bare : Nfa := { states := #[], start := 0, accept := 0 }
  bare.extend.flag? 0 true

def literal? (c : Char) : Option Nfa := do
  let single ← empty?
  let linked ← single.extend.link? single.start (some c) single.size
  linked.moveAccept? single.size

def concat? (left right : Nfa) : Option Nfa := do
  let offset := left.size
  let linked ← (left.adopt right).link? left.accept none (right.start + offset)
  linked.moveAccept? (right.accept + offset)

def linkAround? (automaton : Nfa) (pairs : Nfa → List (Nat × Nat)) : Option Nfa := do
  let whole ← automaton.enclose?
  whole.linkAll? (pairs whole)

def union? (left right : Nfa) : Option Nfa :=
  let offset := left.size
  (left.adopt right).linkAround? fun whole =>
    [(whole.start, left.start), (whole.start, right.start + offset),
      (left.accept, whole.accept), (right.accept + offset, whole.accept)]

def star? (body : Nfa) : Option Nfa :=
  body.linkAround? fun whole =>
    [(whole.start, whole.accept), (whole.start, body.start), (body.accept, whole.accept),
      (body.accept, body.start)]

def optional? (body : Nfa) : Option Nfa :=
  body.linkAround? fun whole =>
    [(whole.start, body.start), (body.accept, whole.accept), (whole.start, whole.accept)]

def plus? (body : Nfa) : Option Nfa :=
  body.linkAround? fun whole =>
    [(whole.start, body.start), (body.accept, whole.accept), (whole.accept, whole.start)]

def joined? : Connective → Nfa → Nfa → Option Nfa
  | .concat => concat?
  | .union => union?

def repeated? : Quantifier → Nfa → Option Nfa
  | .star => star?
  | .plus => plus?
  | .optional => optional?

/-! ## The search along silent edges -/

/-- A search under way: the numbers it has noted, and those of them whose edges
are still to be followed, earliest first. -/
structure Search where
  noted : StateSet
  queue : List Nat

namespace Search

def note (search : Search) (id : Nat) : Search :=
  if id ∈ search.noted then search
  else { noted := search.noted.insert id, queue := search.queue ++ [id] }

def noteAll (search : Search) (ids : List Nat) : Search := ids.foldl note search

variable {search : Search} {ids numbers : List Nat} {id : Nat}

theorem mem_noted_note {other : Nat} :
    other ∈ (search.note id).noted ↔ other ∈ search.noted ∨ other = id := by
  by_cases known : id ∈ search.noted
  · simp only [note, known, if_true]
    constructor
    · exact Or.inl
    · rintro (old | rfl)
      · exact old
      · exact known
  · simp only [note, known, if_false, StateSet.mem_insert]
    rw [or_comm, eq_comm]

@[simp] theorem mem_noted_noteAll :
    id ∈ (search.noteAll ids).noted ↔ id ∈ search.noted ∨ id ∈ ids := by
  induction ids generalizing search with
  | nil => simp [noteAll]
  | cons head rest ih =>
    change id ∈ ((search.note head).noteAll rest).noted ↔ _
    rw [ih, mem_noted_note, List.mem_cons, or_assoc]

def unnoted (search : Search) (numbers : List Nat) : Nat :=
  numbers.countP fun id => decide (id ∉ search.noted)

theorem noteAll_eq_self (known : ∀ id ∈ ids, id ∈ search.noted) : search.noteAll ids = search := by
  induction ids with
  | nil => rfl
  | cons head rest ih =>
    have old : search.note head = search := if_pos (known head List.mem_cons_self)
    change (search.note head).noteAll rest = search
    rw [old]
    exact ih fun id member => known id (List.mem_cons_of_mem _ member)

/-- Noting more leaves fewer to be noted, or changes nothing at all. -/
theorem unnoted_noteAll_lt (inside : ∀ id ∈ ids, id ∈ numbers) :
    (search.noteAll ids).unnoted numbers < search.unnoted numbers ∨ search.noteAll ids = search := by
  by_cases known : ∀ id ∈ ids, id ∈ search.noted
  · exact Or.inr (noteAll_eq_self known)
  · simp only [Classical.not_forall] at known
    obtain ⟨id, member, fresh⟩ := known
    refine Or.inl (StateSet.countP_lt_countP (inside id member) ?_ ?_ ?_)
    · simp [member]
    · simpa using fresh
    · intro other outside
      simp only [mem_noted_noteAll, not_or, decide_eq_true_eq] at outside ⊢
      exact outside.1

end Search

def silentTargets (automaton : Nfa) : List Nat :=
  automaton.states.toList.flatMap (·.targets none)

theorem mem_silentTargets {automaton : Nfa} {id : Nat} {state : State}
    (found : automaton.state? id = some state) :
    ∀ target ∈ state.targets none, target ∈ automaton.silentTargets := fun _ member =>
  List.mem_flatMap.mpr ⟨state, Array.mem_toList_iff.mpr (Array.mem_of_getElem? found), member⟩

def Search.run? (automaton : Nfa) (search : Search) : Option StateSet :=
  match _ : search.queue with
  | [] => some search.noted
  | id :: queue =>
    match _ : automaton.state? id with
    | none => none
    | some state =>
      Search.run? automaton (Search.noteAll { search with queue } (state.targets none))
termination_by (search.unnoted automaton.silentTargets, search.queue.length)
decreasing_by
  rename_i waits found
  rcases @unnoted_noteAll_lt { search with queue } _ _ (mem_silentTargets found) with fewer | same
  · exact Prod.Lex.left _ _ fewer
  · rw [same, waits]
    exact Prod.Lex.right _ (Nat.lt_succ_self _)

/-- The states reachable along silent edges. Only of the numbers given is it asked whether they
belong to a state. -/
def closure? (automaton : Nfa) (ids : List Nat) : Option StateSet :=
  let given := ids.filter (· < automaton.size)
  Search.run? automaton (Search.noteAll ⟨∅, []⟩ given)

end Nfa

end PatternAutomata
