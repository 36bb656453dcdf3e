import PatternAutomata.Fault
import PatternAutomata.Nfa.Simulation
import Std.Data.ExtTreeMap

/-! Deterministic automata whose states stand for sets.

A state is known by the set it stands for: no two states of an automaton have
the same one, and states are numbered in the order they were added. State zero
is the start state.
-/

set_option autoImplicit false

namespace PatternAutomata

namespace Dfa

structure State where
  members : StateSet
  transitions : Std.ExtTreeMap Char Nat := ∅
  accepting : Bool := false

/-- States are compared by what they stand for, whatever their transitions. -/
instance : BEq State := ⟨fun left right => left.members == right.members⟩

namespace State

def ofIds (ids : List Nat) : State := { members := .ofList ids }

def ofNfa (automaton : Nfa) (members : StateSet) : State :=
  { members, accepting := automaton.anyAccepting members }

def connect (state : State) (c : Char) (target : Nat) : State :=
  { state with transitions := state.transitions.insert c target }

def withAccepting (state : State) (accepting : Bool) : State := { state with accepting }

end State

/-- How many states remain if of those that compare as equal only one is kept. -/
def distinct (states : List State) : Nat := states.eraseDups.length

end Dfa

/-- The states in the order they were added. This stands for an insertion-ordered map from sets to
states: the index of an entry is the place where it was inserted, and no entry is ever taken out. -/
structure Dfa where
  states : Array Dfa.State

namespace Dfa

def ofStart (start : State) : Dfa := ⟨#[start]⟩

def start : Nat := 0

def size (automaton : Dfa) : Nat := automaton.states.size

def state? (automaton : Dfa) (id : Nat) : Option State := automaton.states[id]?

def sets (automaton : Dfa) : List StateSet := automaton.states.toList.map (·.members)

def find? (automaton : Dfa) (set : StateSet) : Option Nat :=
  automaton.states.findIdx? fun state => decide (state.members = set)

structure Inserted where
  automaton : Dfa
  id : Nat
  isNew : Bool

/-- Add a state unless its set has one already, which then stays as it is. -/
def insert (automaton : Dfa) (state : State) : Inserted :=
  match automaton.find? state.members with
  | some id => ⟨automaton, id, false⟩
  | none => ⟨⟨automaton.states.push state⟩, automaton.size, true⟩

def update? (automaton : Dfa) (id : Nat) (change : State → State) : Option Dfa :=
  if id < automaton.size then some ⟨automaton.states.modify id change⟩ else none

/-- Lead from one state to another on reading `c`. Both have to exist; where
neither does, the target is reported. -/
def connect (automaton : Dfa) (source : Nat) (c : Char) (target : Nat) :
    Except Diagnostic Dfa :=
  if target < automaton.size then
    match automaton.update? source (·.connect c target) with
    | some changed => .ok changed
    | none => .error { fault := .unknownState source }
  else .error { fault := .unknownState target }

def next? (automaton : Dfa) (id : Nat) (c : Char) : Option Nat :=
  (automaton.state? id).bind (·.transitions[c]?)

def run? (automaton : Dfa) (id : Nat) : List Char → Option Nat
  | [] => some id
  | c :: rest => (automaton.next? id c).bind (automaton.run? · rest)

def isAccepting (automaton : Dfa) (id : Nat) : Bool :=
  (automaton.state? id).any (·.accepting)

def accepts (automaton : Dfa) (input : String) : Bool :=
  (automaton.run? start input.toList).any automaton.isAccepting

variable {automaton changed : Dfa} {state : State} {set : StateSet} {id source target : Nat} {c : Char}

theorem find?_eq_none_iff : automaton.find? set = none ↔ set ∉ automaton.sets := by
  simp [find?, sets, Array.findIdx?_eq_none_iff]

theorem find?_isSome_iff : (automaton.find? set).isSome ↔ set ∈ automaton.sets := by
  rw [Option.isSome_iff_ne_none, ne_eq, find?_eq_none_iff, Classical.not_not]

@[simp] theorem sets_ofStart : (ofStart state).sets = [state.members] := rfl

theorem insert_of_mem (known : state.members ∈ automaton.sets) :
    (automaton.insert state).automaton = automaton ∧
      (automaton.insert state).isNew = false := by
  obtain ⟨id, found⟩ := Option.isSome_iff_exists.mp (find?_isSome_iff.mpr known)
  simp [insert, found]

theorem insert_of_not_mem (unknown : state.members ∉ automaton.sets) :
    automaton.insert state = ⟨⟨automaton.states.push state⟩, automaton.size, true⟩ := by
  simp [insert, find?_eq_none_iff.mpr unknown]

theorem sets_insert_of_not_mem (unknown : state.members ∉ automaton.sets) :
    (automaton.insert state).automaton.sets = automaton.sets ++ [state.members] := by
  simp [insert_of_not_mem unknown, sets]

theorem sets_update? {change : State → State} (kept : ∀ state, (change state).members = state.members)
    (done : automaton.update? id change = some changed) : changed.sets = automaton.sets := by
  simp only [update?, Option.ite_none_right_eq_some, Option.some.injEq] at done
  obtain ⟨_, rfl⟩ := done
  apply List.ext_getElem?
  intro place
  simp only [sets, Array.toList_modify, List.getElem?_map, List.getElem?_modify]
  by_cases here : id = place <;> simp [here, kept, Function.comp_def]

theorem sets_connect (done : automaton.connect source c target = .ok changed) :
    changed.sets = automaton.sets := by
  simp only [connect] at done
  split at done
  · split at done
    · rename_i updated
      cases done
      refine sets_update? ?_ updated
      intro state
      rfl
    · cases done
  · cases done

end Dfa

end PatternAutomata
