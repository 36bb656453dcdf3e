import PatternAutomata.Dfa.Basic
import PatternAutomata.Nfa.Listing

/-! Deterministic automata written out, one line for each state.

A line gives the number of a state, the set it stands for in ascending order,
and its transitions in the order of their characters.
-/

set_option autoImplicit false

namespace PatternAutomata

namespace Dfa

def State.listing (state : State) : String :=
  "\x7b" ++ ", ".intercalate (state.members.toList.map toString) ++ "\x7d" ++
    acceptingMark state.accepting

def State.transitionListing (state : State) : String :=
  String.join (state.transitions.toList.map fun (c, target) => s!" '{c}' -> {target}")

def listing (automaton : Dfa) : String :=
  String.join (automaton.states.toList.zipIdx.map fun (state, id) =>
    toString id ++ " " ++ state.listing ++ ":" ++ state.transitionListing ++ "\n")

end Dfa

end PatternAutomata
