import PatternAutomata.Token

/-! What can be wrong with a pattern or with a request to an automaton. -/

set_option autoImplicit false

namespace PatternAutomata

inductive Fault where
  | unclosedGroup
  | unopenedGroup
  | bracketInPostfix
  | missingOperand (operator : Token)
  | unjoinedOperands (count : Nat)
  | unknownState (id : Nat)
  deriving DecidableEq, Repr

def Fault.message : Fault → String
  | .unclosedGroup => "unclosed '('"
  | .unopenedGroup => "unexpected ')' without a matching '('"
  | .bracketInPostfix => "parentheses are not allowed in postfix notation"
  | .missingOperand operator => s!"operator '{operator}' is missing an operand"
  | .unjoinedOperands count => s!"{count} sub-expressions are not joined by any operator"
  | .unknownState id => s!"DFA state {id} does not exist"

/-- A fault and, where one character is to blame, the index of that character
in the text being read. -/
structure Diagnostic where
  fault : Fault
  position : Option Nat := none
  deriving DecidableEq, Repr

def Diagnostic.message (diagnostic : Diagnostic) : String :=
  match diagnostic.position with
  | some position => s!"{diagnostic.fault.message} at position {position}"
  | none => diagnostic.fault.message

end PatternAutomata
