import PatternAutomata.Concatenation
import PatternAutomata.Fault

/-! Operators moved behind their operands.

Operands are passed on at once. An operator waits until one of lesser strength,
the end of its group or the end of the pattern shows that its operands are
complete. Brackets only group and are dropped.
-/

set_option autoImplicit false

namespace PatternAutomata

/-- What still waits when the pattern ends, latest first. An open bracket among
it was never closed. -/
def release : List Lexeme → Except Diagnostic (List Lexeme)
  | [] => .ok []
  | top :: waiting =>
    if top.token = .openGroup then .error ⟨.unclosedGroup, some top.position⟩
    else (top :: ·) <$> release waiting

/-- Reorder the tokens while `waiting` holds the operators not yet applied and
the brackets not yet closed, latest first. -/
def reorder (waiting : List Lexeme) : List Lexeme → Except Diagnostic (List Lexeme)
  | [] => release waiting
  | next :: rest =>
    match next.token with
    | .literal _ => (next :: ·) <$> reorder waiting rest
    | .openGroup => reorder (next :: waiting) rest
    | .closeGroup =>
      -- the group ends, so everything that waited inside it is complete
      let inner := waiting.takeWhile (·.token ≠ .openGroup)
      match waiting.dropWhile (·.token ≠ .openGroup) with
      | [] => .error ⟨.unopenedGroup, some next.position⟩
      | _ :: outer => (inner ++ ·) <$> reorder outer rest
    | .quantifier _ | .connective _ =>
      -- an open bracket is never ready, so nothing outside the group is touched
      let ready := waiting.takeWhile (·.token.appliesBefore next.token)
      let kept := waiting.dropWhile (·.token.appliesBefore next.token)
      (ready ++ ·) <$> reorder (next :: kept) rest

def postfixOrder (pattern : String) : Except Diagnostic (List Lexeme) :=
  reorder [] (marked (lexemes pattern))

def postfixText (pattern : String) : Except Diagnostic String :=
  spelling <$> postfixOrder pattern

end PatternAutomata
