import PatternAutomata.Nfa.Combinators
import PatternAutomata.PostfixOrder

/-! From the text of a pattern to its automaton.

A pattern is written as usual, such as `a(b|c)*`, or with operators behind their
operands, such as `abc|*·`. Both end in the same reading of operands-first tokens.
Positions in diagnostics count the characters of the text given.
-/

set_option autoImplicit false

namespace PatternAutomata

def build (tokens : List Lexeme) : Except Diagnostic Nfa :=
  (fun whole => (whole.map Expr.toNfa).getD .empty) <$> Expr.ofPostfix tokens

def compile (pattern : String) : Except Diagnostic Nfa := postfixOrder pattern >>= build

def compilePostfix (text : String) : Except Diagnostic Nfa := build (lexemes text)

end PatternAutomata
