import PatternAutomata.Reach

/-! Nondeterministic automata over numbered states.

A state lists its outgoing edges in the order they were drawn. An edge without
a label is silent: it is followed without reading a character. There is one
start state and one accept state.
-/

set_option autoImplicit false

namespace PatternAutomata

namespace Nfa

structure Edge where
  label : Option Char
  target : Nat
  deriving DecidableEq, Repr

structure State where
  id : Nat
  edges : List Edge := []
  accepting : Bool := false
  deriving DecidableEq, Repr

/-- Where the edges with the given label lead, in the order they were drawn.
No label selects the silent edges. -/
def State.targets (state : State) (label : Option Char) : List Nat :=
  (state.edges.filter (·.label = label)).map (·.target)

end Nfa

structure Nfa where
  states : Array Nfa.State
  start : Nat
  accept : Nat
  deriving DecidableEq, Repr

namespace Nfa

def size (automaton : Nfa) : Nat := automaton.states.size

def state? (automaton : Nfa) (id : Nat) : Option State := automaton.states[id]?

def targets (automaton : Nfa) (id : Nat) (label : Option Char) : List Nat :=
  ((automaton.state? id).map (·.targets label)).getD []

def alphabet (automaton : Nfa) : Std.ExtTreeSet Char :=
  .ofList (automaton.states.toList.flatMap fun state => state.edges.filterMap (·.label))

end Nfa

end PatternAutomata
