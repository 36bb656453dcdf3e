import Mathlib.Order.Bounds.Defs

/-! Where the brackets of a text do not match, told by counting them.

A text is at fault up to a place if more brackets were closed there than opened.
An opening bracket is unmatched if every segment of the text from it on opens
more than it closes. Nothing here depends on how a pattern is read.
-/

set_option autoImplicit false

namespace PatternAutomata

def Overclosed (text : List Char) : Prop := text.count '(' < text.count ')'

def Overopened (text : List Char) : Prop := text.count ')' < text.count '('

/-- The places up to which, themselves included, the text is overclosed. -/
def overclosedAt (text : List Char) : Set Nat :=
  {place | place < text.length ∧ Overclosed (text.take (place + 1))}

def unclosedAt (text : List Char) : Set Nat :=
  {place | text[place]? = some '(' ∧
    ∀ last, place ≤ last → last < text.length → Overopened (text.extract place (last + 1))}

end PatternAutomata
