import PatternAutomata.Compile
import PatternAutomata.Nfa.Simulation

/-! Patterns compiled once and compared with whole texts. -/

set_option autoImplicit false

namespace PatternAutomata

structure Matcher where
  pattern : String
  automaton : Nfa

def Matcher.ofPattern (pattern : String) : Except Diagnostic Matcher :=
  ({ pattern, automaton := · }) <$> compile pattern

def Matcher.isMatch (matcher : Matcher) (text : String) : Bool := matcher.automaton.accepts text

end PatternAutomata
