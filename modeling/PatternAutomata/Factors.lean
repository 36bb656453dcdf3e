import PatternAutomata.Expr

/-! Expressions in which concatenation is not grouped.

A concatenation of concatenations is one list of factors. The sides of a union
and the body of a quantifier are such lists again.
-/

set_option autoImplicit false

namespace PatternAutomata

inductive Factor where
  | literal (c : Char)
  | union (left right : List Factor)
  | repeated (how : Quantifier) (body : List Factor)
  deriving Repr

def Expr.factors : Expr → List Factor
  | .literal c => [.literal c]
  | .joined .concat left right => left.factors ++ right.factors
  | .joined .union left right => [.union left.factors right.factors]
  | .repeated how body => [.repeated how body.factors]

end PatternAutomata
