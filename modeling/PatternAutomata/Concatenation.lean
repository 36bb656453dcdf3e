import PatternAutomata.Lexeme

/-! Concatenation written out.

Two operands that touch are concatenated. The functions below put the marker
at each such place, so that every later stage meets operators only in writing.
-/

set_option autoImplicit false

namespace PatternAutomata

def Token.meets (left right : Token) : Bool := !left.awaitsOperand && !right.bindsLeft

/-- Put a marker wherever operands meet. It takes the position of the token
that follows it. -/
def marked : List Lexeme → List Lexeme
  | [] => []
  | [last] => [last]
  | first :: second :: rest =>
    if first.token.meets second.token then
      first :: ⟨second.position, .connective .concat⟩ :: marked (second :: rest)
    else
      first :: marked (second :: rest)

def markConcatenation (pattern : String) : String := spelling (marked (lexemes pattern))

end PatternAutomata
