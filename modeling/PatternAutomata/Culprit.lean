import PatternAutomata.Fault

/-! Which character of a pattern a diagnostic may point at. -/

set_option autoImplicit false

namespace PatternAutomata

/-- The diagnostic points at a character of the text that is to blame: the bracket that does not
match, the operator that lacks an operand, or, for a concatenation that is not in writing, the
second of the two neighbours that it is implied by. -/
inductive Culprit (text : List Char) : Diagnostic → Prop where
  | unclosed {place : Nat} :
      text[place]? = some '(' → Culprit text ⟨.unclosedGroup, some place⟩
  | unopened {place : Nat} :
      text[place]? = some ')' → Culprit text ⟨.unopenedGroup, some place⟩
  | operator {place : Nat} {operator : Token} :
      operator.isOperator = true → text[place]? = some operator.toChar →
      Culprit text ⟨.missingOperand operator, some place⟩
  | implied {before : Nat} {left right : Char} :
      text[before]? = some left → left ∉ ['(', '|', Token.concatMarker] →
      text[before + 1]? = some right → right = '(' ∨ right ∉ Token.reserved →
      Culprit text ⟨.missingOperand (.connective .concat), some (before + 1)⟩

end PatternAutomata
