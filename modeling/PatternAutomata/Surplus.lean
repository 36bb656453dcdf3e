import Mathlib.Order.Bounds.Defs
import PatternAutomata.Token

/-! How many operands are on hand where a text is read, told by counting its characters.

In a text with operators behind their operands each literal puts one operand on
hand, and a binary operator makes one out of two. A character is refused where
it does not find its operands, and brackets are refused everywhere.
-/

set_option autoImplicit false

namespace PatternAutomata

def surplus (text : List Char) : Int :=
  (text.countP (· ∉ Token.reserved) : Int) - text.countP (· ∈ [Token.concatMarker, '|'])

/-- The places of brackets, of binary operators with fewer than two operands before them, and of
quantifiers without one. -/
def refusedAt (text : List Char) : Set Nat :=
  {place | ∃ c, text[place]? = some c ∧
    (c ∈ ['(', ')'] ∨ c ∈ [Token.concatMarker, '|'] ∧ surplus (text.take place) < 2 ∨
      c ∈ ['*', '+', '?'] ∧ surplus (text.take place) < 1)}

end PatternAutomata
