import PatternAutomata.Nfa.Basic

/-! Nondeterministic automata written out, one line for each state.

Characters are written as they are, and a silent edge is marked by ε. A star
follows the number of an accepting state.
-/

set_option autoImplicit false

namespace PatternAutomata

def acceptingMark (accepting : Bool) : String := if accepting then "*" else ""

namespace Nfa

def Edge.listing (edge : Edge) : String :=
  match edge.label with
  | some c => s!"'{c}' -> {edge.target}"
  | none => s!"ε -> {edge.target}"

def State.listing (state : State) : String :=
  toString state.id ++ acceptingMark state.accepting ++ ": [" ++
    ", ".intercalate (state.edges.map (·.listing)) ++ "]"

def listing (automaton : Nfa) : String :=
  s!"start: {automaton.start}, accept: {automaton.accept}\n" ++
    String.join (automaton.states.toList.map fun state => state.listing ++ "\n")

end Nfa

end PatternAutomata
