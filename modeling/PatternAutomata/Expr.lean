import PatternAutomata.Fault
import PatternAutomata.Lexeme

/-! Expressions, and how they are read from operands-first order.

An operator takes the expressions read last as its operands. What is left when
all is read has to be a single expression.
-/

set_option autoImplicit false

namespace PatternAutomata

inductive Expr where
  | literal (c : Char)
  | joined (how : Connective) (left right : Expr)
  | repeated (how : Quantifier) (body : Expr)
  deriving DecidableEq, Repr

namespace Expr

/-- Read one more token, given the expressions read so far, latest first. -/
def push (read : List Expr) (next : Lexeme) : Except Diagnostic (List Expr) :=
  match next.token, read with
  | .literal c, read => .ok (.literal c :: read)
  -- the right-hand side was read last
  | .connective how, right :: left :: rest => .ok (.joined how left right :: rest)
  | .quantifier how, body :: rest => .ok (.repeated how body :: rest)
  | .connective _, _ | .quantifier _, _ => .error ⟨.missingOperand next.token, some next.position⟩
  | .openGroup, _ | .closeGroup, _ => .error ⟨.bracketInPostfix, some next.position⟩

/-- No expression at all stands for the empty text. -/
def finish : List Expr → Except Diagnostic (Option Expr)
  | [] => .ok none
  | [whole] => .ok (some whole)
  | read => .error { fault := .unjoinedOperands read.length }

def ofPostfix (tokens : List Lexeme) : Except Diagnostic (Option Expr) :=
  tokens.foldlM push [] >>= finish

def postorder : Expr → List Token
  | .literal c => [.literal c]
  | .joined how left right => left.postorder ++ right.postorder ++ [.connective how]
  | .repeated how body => body.postorder ++ [.quantifier how]

end Expr

end PatternAutomata
