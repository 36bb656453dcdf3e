/-! The symbols of a pattern and the characters that write them.

Seven characters are reserved. Every other character is a literal and stands
for itself, so a token and its character determine each other.
-/

set_option autoImplicit false

namespace PatternAutomata

inductive Quantifier where
  | star
  | plus
  | optional
  deriving DecidableEq, Repr

inductive Connective where
  | concat
  | union
  deriving DecidableEq, Repr

inductive Token where
  | literal (c : Char)
  | quantifier (kind : Quantifier)
  | connective (kind : Connective)
  | openGroup
  | closeGroup
  deriving DecidableEq, Repr

namespace Token

-- Between operands that touch the marker may be left out.
def concatMarker : Char := '·'

def reserved : List Char := ['*', '+', '?', '|', concatMarker, '(', ')']

def ofChar (c : Char) : Token :=
  if c = '*' then .quantifier .star
  else if c = '+' then .quantifier .plus
  else if c = '?' then .quantifier .optional
  else if c = '|' then .connective .union
  else if c = concatMarker then .connective .concat
  else if c = '(' then .openGroup
  else if c = ')' then .closeGroup
  else .literal c

def toChar : Token → Char
  | .literal c => c
  | .quantifier .star => '*'
  | .quantifier .plus => '+'
  | .quantifier .optional => '?'
  | .connective .union => '|'
  | .connective .concat => concatMarker
  | .openGroup => '('
  | .closeGroup => ')'

/-- The characters that a statement about patterns means where it names an operator by its token. -/
theorem map_toChar_operators :
    [quantifier .star, quantifier .plus, quantifier .optional, connective .union,
      connective .concat].map toChar = ['*', '+', '?', '|', '·'] := rfl

instance : ToString Token := ⟨fun token => token.toChar.toString⟩

@[simp] theorem toChar_ofChar (c : Char) : (ofChar c).toChar = c := by
  unfold ofChar
  -- one case for each reserved character, and one for all literals
  repeat' split
  all_goals simp_all [toChar]

theorem ofChar_inj {c d : Char} : ofChar c = ofChar d ↔ c = d :=
  ⟨fun same => by rw [← toChar_ofChar c, same, toChar_ofChar], congrArg ofChar⟩

theorem ofChar_of_not_reserved {c : Char} (free : c ∉ reserved) : ofChar c = .literal c := by
  simp only [reserved, List.mem_cons, List.not_mem_nil, or_false, not_or] at free
  simp [ofChar, free]

theorem ofChar_eq_literal_iff {c d : Char} :
    ofChar c = .literal d ↔ c = d ∧ c ∉ reserved := by
  constructor
  · intro same
    have written : c = d := by rw [← toChar_ofChar c, same, toChar]
    subst written
    refine ⟨rfl, fun member => ?_⟩
    simp only [reserved, List.mem_cons, List.not_mem_nil, or_false] at member
    rcases member with rfl | rfl | rfl | rfl | rfl | rfl | rfl <;> exact absurd same (by decide)
  · rintro ⟨rfl, free⟩
    exact ofChar_of_not_reserved free

def precedence : Token → Option Nat
  | .quantifier _ => some 2
  | .connective .concat => some 1
  | .connective .union => some 0
  | .literal _ | .openGroup | .closeGroup => none

def isOperand : Token → Bool
  | .literal _ => true
  | _ => false

def isQuantifier : Token → Bool
  | .quantifier _ => true
  | _ => false

def isOperator (token : Token) : Bool := token.precedence.isSome

def awaitsOperand : Token → Bool
  | .openGroup | .connective _ => true
  | .literal _ | .quantifier _ | .closeGroup => false

def bindsLeft : Token → Bool
  | .closeGroup | .quantifier _ | .connective _ => true
  | .literal _ | .openGroup => false

/-- Whether a waiting operator is applied before `next`. Operators of equal
strength group to the left. -/
def appliesBefore (waiting next : Token) : Bool :=
  match waiting.precedence, next.precedence with
  | some first, some second => decide (second ≤ first)
  | _, _ => false

end Token

end PatternAutomata
