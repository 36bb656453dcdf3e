import PatternAutomata.Nfa.Basic

/-! Running an automaton on all its possible states at once.

The states that the automaton may be in form a set, closed under silent edges.
Reading a character turns one such set into the next.
-/

set_option autoImplicit false

namespace PatternAutomata

namespace Nfa

/-- The states reachable from the given ones along silent edges, those included.
Numbers that belong to no state are ignored. -/
def closure (automaton : Nfa) (ids : List Nat) : StateSet :=
  reach (automaton.targets · none) automaton.size ∅ ids

def initial (automaton : Nfa) : StateSet := automaton.closure [automaton.start]

def step (automaton : Nfa) (current : StateSet) (c : Char) : StateSet :=
  automaton.closure (current.toList.flatMap (automaton.targets · (some c)))

def after (automaton : Nfa) (text : List Char) : StateSet :=
  text.foldl automaton.step automaton.initial

def walk (automaton : Nfa) (input : String) : List StateSet :=
  input.toList.scanl automaton.step automaton.initial

def anyAccepting (automaton : Nfa) (set : StateSet) : Bool :=
  set.toList.any fun id => (automaton.state? id).any (·.accepting)

/-- The states after a text, given up as soon as there are none. -/
def run? (automaton : Nfa) (current : StateSet) : List Char → Option StateSet
  | [] => some current
  | c :: rest =>
    let next := automaton.step current c
    if next.isEmpty then none else automaton.run? next rest

def accepts (automaton : Nfa) (input : String) : Bool :=
  (automaton.run? automaton.initial input.toList).any automaton.anyAccepting

theorem lt_of_mem_closure {automaton : Nfa} {ids : List Nat} :
    ∀ id ∈ automaton.closure ids, id < automaton.size :=
  lt_of_mem_reach (by simp)

theorem lt_of_mem_step {automaton : Nfa} {current : StateSet} {c : Char} :
    ∀ id ∈ automaton.step current c, id < automaton.size :=
  lt_of_mem_closure

end Nfa

end PatternAutomata
