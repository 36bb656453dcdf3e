import PatternAutomata.Token

/-! A text with its implied concatenations written out, told from its characters alone.

Concatenation is implied between two neighbours by what they are. A marker that
is put in stands for the place of the character behind it. Nothing here depends
on how a pattern is read.
-/

set_option autoImplicit false

namespace PatternAutomata

/-- The left character leaves nothing open on its right, and the right one is not bound to what
stands on its left. -/
def Implied (left right : Char) : Prop :=
  left ∉ ['(', '|', Token.concatMarker] ∧
    right ∉ [')', '*', '+', '?', '|', Token.concatMarker]

instance {left right : Char} : Decidable (Implied left right) :=
  inferInstanceAs (Decidable (_ ∧ _))

def impliedAt (text : List Char) : Nat → Bool
  | 0 => false
  | before + 1 =>
    match text[before]?, text[before + 1]? with
    | some left, some right => Implied left right
    | _, _ => false

def gapAt (text : List Char) (place : Nat) : List (Char × Nat) :=
  if impliedAt text place then [(Token.concatMarker, place)] else []

/-- The written-out text, each character with the place that it stands for: its own place in the
text, or that of the next character if it is a marker put in. -/
def writtenOut (text : List Char) : List (Char × Nat) :=
  text.zipIdx.flatMap fun (c, place) => gapAt text place ++ [(c, place)]

end PatternAutomata
