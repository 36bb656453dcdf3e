import PatternAutomata.Expr

/-! The patterns that are well formed, and the expression each one means.

Quantifiers bind tightest, then concatenation, then union; concatenation and
union group to the left. The rules say nothing of how a pattern is read.
-/

set_option autoImplicit false

namespace PatternAutomata

inductive Level where
  | union
  | concat
  | repetition
  | atom
  deriving DecidableEq, Repr

/-- The text derives the expression as something that may stand at the level. -/
inductive Derives : Level → List Char → Expr → Prop where
  | literal {c : Char} : c ∉ Token.reserved → Derives .atom [c] (.literal c)
  | group {text : List Char} {e : Expr} :
      Derives .union text e → Derives .atom ('(' :: text ++ [')']) e
  | atom {text : List Char} {e : Expr} : Derives .atom text e → Derives .repetition text e
  | quantified {text : List Char} {body : Expr} (how : Quantifier) :
      Derives .repetition text body →
      Derives .repetition (text ++ [(Token.quantifier how).toChar]) (.repeated how body)
  | repetition {text : List Char} {e : Expr} : Derives .repetition text e → Derives .concat text e
  | implied {first second : List Char} {left right : Expr} :
      Derives .concat first left → Derives .repetition second right →
      Derives .concat (first ++ second) (.joined .concat left right)
  | written {first second : List Char} {left right : Expr} :
      Derives .concat first left → Derives .repetition second right →
      Derives .concat (first ++ Token.concatMarker :: second) (.joined .concat left right)
  | concat {text : List Char} {e : Expr} : Derives .concat text e → Derives .union text e
  | union {first second : List Char} {left right : Expr} :
      Derives .union first left → Derives .concat second right →
      Derives .union (first ++ '|' :: second) (.joined .union left right)

end PatternAutomata
