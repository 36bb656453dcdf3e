import PatternAutomata.Culprit
import PatternAutomata.Proofs.BracketFaults
import PatternAutomata.Proofs.Marking

/-! Every failure of a pattern points at the character to blame.

A blamed token stands in the marked pattern, so it was read from a character or
is a marker put in between two. A failure without a place would need operands
that nothing joins, and the markers join them all.
-/

set_option autoImplicit false

namespace PatternAutomata

open Token

variable {pattern : String} {out : List Lexeme} {lexeme : Lexeme} {diagnostic : Diagnostic}

/-! ## Where a marked token comes from -/

theorem exists_of_impliedAt {text : List Char} {place : Nat} (implied : impliedAt text place = true) :
    ∃ before left right, place = before + 1 ∧ text[before]? = some left ∧
      text[before + 1]? = some right ∧ Implied left right := by
  cases place with
  | zero => cases implied
  | succ before =>
    rw [impliedAt] at implied
    split at implied
    · rename_i left right here there
      exact ⟨before, left, right, rfl, here, there, of_decide_eq_true implied⟩
    · cases implied

theorem eq_openGroup_or_not_reserved {left right : Char} (implied : Implied left right) :
    right = '(' ∨ right ∉ reserved := by
  have starts := implied.2
  simp only [List.mem_cons, List.not_mem_nil, or_false, not_or] at starts
  simp [reserved, starts, em]

/-- A marked token was read from the character at its position, or is a marker in front of that. -/
theorem exists_of_mem_marked (member : lexeme ∈ marked (lexemes pattern)) :
    pattern.toList[lexeme.position]? = some lexeme.token.toChar ∨
      lexeme.token = .connective .concat ∧ impliedAt pattern.toList lexeme.position = true := by
  rw [marked_lexemes, List.mem_map] at member
  obtain ⟨⟨c, place⟩, placed, rfl⟩ := member
  rw [writtenOut, List.mem_flatMap] at placed
  obtain ⟨⟨d, spot⟩, found, placed⟩ := placed
  have here : pattern.toList[spot]? = some d := by
    simpa using List.mem_zipIdx_iff_getElem?.mp found
  obtain put | own := List.mem_append.mp placed
  · rw [gapAt] at put
    split at put
    · rename_i implied
      cases List.mem_singleton.mp put
      have marker : ofChar concatMarker = .connective .concat := by decide
      exact .inr ⟨marker, implied⟩
    · cases put
  · cases List.mem_singleton.mp own
    exact .inl (by simpa [Lexeme.ofPlaced] using here)

/-! ## What may be blamed -/

theorem gain_postfixOrder_le (known : postfixOrder pattern = .ok out) :
    gain (out.map (·.token)) ≤ 1 := by
  have counted := (operands_le_following .openGroup (pattern.toList.map ofChar)).1
  have marks := tokens_marked_lexemes pattern
  rw [gain, operands_reordered known, connectives_reordered known, marks, operands_explicit,
    explicit_eq_following]
  simp only [completed, awaitsOperand] at counted
  omega

theorem culprit_of_missingOperand (member : lexeme ∈ marked (lexemes pattern))
    (operator : lexeme.token.isOperator = true) :
    Culprit pattern.toList ⟨.missingOperand lexeme.token, some lexeme.position⟩ := by
  obtain here | ⟨marker, implied⟩ := exists_of_mem_marked member
  · exact .operator operator here
  · obtain ⟨before, left, right, place, there, here, meet⟩ := exists_of_impliedAt implied
    rw [marker, place]
    exact .implied there meet.1 here (eq_openGroup_or_not_reserved meet)

theorem isOperator_of_refused {token : Token} {height : Int} (refused : token.Refused height)
    (free : token.isBracket = false) : token.isOperator = true := by
  cases token with
  | literal c => cases refused
  | quantifier how => rfl
  | connective how => cases how <;> rfl
  | openGroup => cases free
  | closeGroup => cases free

/-- A bracket that is blamed is no marker, so it stands in the pattern. -/
theorem culprit_of_postfixOrder (failed : postfixOrder pattern = .error diagnostic) :
    Culprit pattern.toList diagnostic := by
  have early : postfixText pattern = .error diagnostic := map_eq_error_iff.mpr failed
  obtain ⟨_, kind⟩ := postfixText_eq_error_iff.mp early
  have blames := blames_of_reorder failed
  rw [List.append_nil] at blames
  obtain ⟨lexeme, member, position, token⟩ := blames
  obtain ⟨fault, place⟩ := diagnostic
  obtain rfl : place = some lexeme.position := position
  obtain here | ⟨marker, _⟩ := exists_of_mem_marked member
  · obtain rfl | rfl := kind
    · rw [← Option.some.inj token] at here
      exact .unopened here
    · rw [← Option.some.inj token] at here
      exact .unclosed here
  · rw [marker] at token
    obtain rfl | rfl := kind <;> cases token

/-- A pattern that does not compile is told one character that is to blame. -/
theorem compile_error_points_at_culprit (pattern : String) (diagnostic : Diagnostic)
    (failed : compile pattern = .error diagnostic) : Culprit pattern.toList diagnostic := by
  rw [compile] at failed
  cases known : postfixOrder pattern with
  | error other =>
    rw [known] at failed
    cases failed
    exact culprit_of_postfixOrder known
  | ok out =>
    rw [known] at failed
    change build out = .error diagnostic at failed
    have reading := reading_build out
    rw [failed] at reading
    cases reading with
    | @refused place lexeme here least =>
      obtain ⟨member, free⟩ := mem_marked_of_postfixOrder known lexeme (List.mem_of_getElem? here)
      obtain ⟨token, there, refused⟩ := least.1
      rw [List.getElem?_map, here] at there
      cases there
      rw [refusal_of_not_isBracket free]
      exact culprit_of_missingOperand member (isOperator_of_refused refused free)
    -- the markers leave one operand at most
    | unjoined count _ many total =>
      have bound := gain_postfixOrder_le known
      omega

theorem compile_error_points_at_culprit_implied :
    compile "()a" = .error ⟨.missingOperand (.connective .concat), some 2⟩ ∧
      Culprit "()a".toList ⟨.missingOperand (.connective .concat), some 2⟩ := by
  have failed : compile "()a" = .error ⟨.missingOperand (.connective .concat), some 2⟩ := rfl
  exact ⟨failed, compile_error_points_at_culprit "()a" _ failed⟩

end PatternAutomata
