import Mathlib.Computability.Language
import PatternAutomata.Expr
import PatternAutomata.Nfa.Simulation

/-! The texts that expressions describe and automata accept. -/

set_option autoImplicit false

namespace PatternAutomata

open scoped Computability

def Expr.language : Expr → Language Char
  | .literal c => {[c]}
  | .joined .concat left right => left.language * right.language
  | .joined .union left right => left.language + right.language
  | .repeated .star body => body.language∗
  | .repeated .plus body => body.language * body.language∗
  | .repeated .optional body => body.language + 1

def Nfa.language (automaton : Nfa) : Language Char :=
  fun text => automaton.accepts (String.ofList text) = true

theorem Nfa.mem_language {automaton : Nfa} {text : List Char} :
    text ∈ automaton.language ↔ automaton.accepts (String.ofList text) = true := Iff.rfl

end PatternAutomata
