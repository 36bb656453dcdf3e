import PatternAutomata.Token

/-! Tokens together with the places they were read from.

Every character of a text is one token, so a place is a character index, and
a text is recovered by writing its tokens side by side.
-/

set_option autoImplicit false

namespace PatternAutomata

structure Lexeme where
  position : Nat
  token : Token
  deriving DecidableEq, Repr

def lexemes (text : String) : List Lexeme :=
  text.toList.zipIdx.map fun (c, position) => ⟨position, .ofChar c⟩

def spelling (tokens : List Lexeme) : String :=
  String.ofList (tokens.map (·.token.toChar))

@[simp] theorem length_lexemes (text : String) : (lexemes text).length = text.length := by
  simp [lexemes, String.length_toList]

theorem getElem?_lexemes (text : String) (place : Nat) :
    (lexemes text)[place]? = text.toList[place]?.map fun c => ⟨place, .ofChar c⟩ := by
  simp [lexemes, List.getElem?_zipIdx, Function.comp_def]

@[simp] theorem tokens_lexemes (text : String) :
    (lexemes text).map (·.token) = text.toList.map .ofChar := by
  calc (lexemes text).map (·.token) = (text.toList.zipIdx.map Prod.fst).map .ofChar := by
        simp only [lexemes, List.map_map, Function.comp_def]
    _ = text.toList.map .ofChar := by rw [List.zipIdx_map_fst]

@[simp] theorem spelling_lexemes (text : String) : spelling (lexemes text) = text := by
  simp [spelling, lexemes, Function.comp_def]

end PatternAutomata
