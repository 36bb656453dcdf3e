import PatternAutomata.Proofs.BracketFaults

/-! Reordering keeps all tokens but the brackets, and the literals in their order.

Operators and brackets wait, but no literal does. So none comes out behind
another one that was read after it.
-/

set_option autoImplicit false

namespace PatternAutomata

open Token

variable {pattern text : String} {waiting pending tokens emitted out : List Lexeme} {next : Lexeme}

def literals (lexemes : List Lexeme) : List Lexeme := lexemes.filter (·.token.isOperand)

theorem literals_append (front back : List Lexeme) :
    literals (front ++ back) = literals front ++ literals back :=
  List.filter_append ..

theorem literals_cons (next : Lexeme) (rest : List Lexeme) :
    literals (next :: rest) = literals [next] ++ literals rest :=
  literals_append [next] rest

theorem literals_singleton_of_free (free : next.token.isOperand = false) : literals [next] = [] :=
  List.filter_cons_of_neg (by simp [free])

theorem Token.isOperand_of_isOperator {token : Token} (operator : token.isOperator = true) :
    token.isOperand = false := by
  cases token <;> simp_all [isOperator, precedence, isOperand]

def NoLiteral (waiting : List Lexeme) : Prop := ∀ lexeme ∈ waiting, lexeme.token.isOperand = false

theorem NoLiteral.literals_eq_nil (free : NoLiteral waiting) : literals waiting = [] := by
  apply List.filter_eq_nil_iff.mpr
  intro lexeme member
  simp [free lexeme member]

theorem NoLiteral.left {front back : List Lexeme} (free : NoLiteral (front ++ back)) :
    NoLiteral front := fun lexeme member =>
  free lexeme (List.mem_append_left back member)

theorem Step.noLiteral (step : Step pending next emitted waiting) (free : NoLiteral pending) :
    NoLiteral waiting := by
  intro lexeme member
  cases step with
  | literal _ => exact free lexeme member
  | openGroup token =>
    rcases List.mem_cons.mp member with rfl | member
    · simp only [token, isOperand]
    · exact free lexeme member
  | closeGroup _ _ _ => exact free lexeme (List.mem_append_right _ (List.mem_cons_of_mem _ member))
  | operator operator _ _ =>
    rcases List.mem_cons.mp member with rfl | member
    · exact isOperand_of_isOperator operator
    · exact free lexeme (List.mem_append_right _ member)

theorem Step.literals_eq (step : Step pending next emitted waiting) (free : NoLiteral pending) :
    literals emitted = literals [next] := by
  cases step with
  | literal _ => rfl
  | openGroup token =>
    have bracket : next.token.isOperand = false := by simp only [token, isOperand]
    exact (literals_singleton_of_free bracket).symm
  | closeGroup token _ _ =>
    have bracket : next.token.isOperand = false := by simp only [token, isOperand]
    exact free.left.literals_eq_nil.trans (literals_singleton_of_free bracket).symm
  | operator operator _ _ =>
    have other := isOperand_of_isOperator operator
    exact free.left.literals_eq_nil.trans (literals_singleton_of_free other).symm

theorem literals_reorder (free : NoLiteral waiting) (known : reorder waiting tokens = .ok out) :
    literals out = literals tokens := by
  induction tokens generalizing waiting out with
  | nil =>
    obtain ⟨rfl, _⟩ := release_eq_ok_iff.mp known
    exact free.literals_eq_nil
  | cons next rest ih =>
    rcases exists_step waiting next with ⟨emitted, left, step⟩ | ⟨token, unopened⟩
    · simp only [step.reorder_eq, map_eq_ok_iff] at known
      obtain ⟨late, later, rfl⟩ := known
      calc literals (emitted ++ late)
          = literals emitted ++ literals late := literals_append emitted late
        _ = literals [next] ++ literals rest := by
          rw [step.literals_eq free, ih (step.noLiteral free) later]
        _ = literals (next :: rest) := (literals_cons next rest).symm
    · simp only [reorder_unopened token unopened] at known
      cases known

theorem literals_marked (read : List Lexeme) : literals (marked read) = literals read := by
  fun_induction marked read with
  | case1 => rfl
  | case2 => rfl
  | case3 first second rest _ ih =>
    have marker : literals (⟨second.position, .connective .concat⟩ :: marked (second :: rest)) =
        literals (marked (second :: rest)) := rfl
    rw [literals_cons first, marker, ih, ← literals_cons]
  | case4 first second rest _ ih => rw [literals_cons first, ih, ← literals_cons]

theorem literals_postfixOrder (known : postfixOrder pattern = .ok out) :
    literals out = literals (lexemes pattern) := by
  have ordered := literals_reorder (List.forall_mem_nil _) known
  exact ordered.trans (literals_marked _)

/-! ## Literals of a text -/

theorem filter_toList_spelling (plain : ∀ lexeme ∈ tokens, lexeme.token.Plain) :
    (spelling tokens).toList.filter (· ∉ reserved) = (literals tokens).map (·.token.toChar) := by
  have told : ∀ lexeme ∈ tokens, decide (lexeme.token.toChar ∉ reserved) = lexeme.token.isOperand := by
    intro lexeme member
    rw [← isOperand_ofChar, plain lexeme member]
  simp only [spelling, String.toList_ofList, List.filter_map, Function.comp_def, literals]
  exact congrArg _ (List.filter_congr told)

theorem filter_toList_postfixText (known : postfixText pattern = .ok text) :
    text.toList.filter (· ∉ reserved) = pattern.toList.filter (· ∉ reserved) := by
  obtain ⟨out, order, rfl⟩ := postfixText_eq_ok_iff.mp known
  calc (spelling out).toList.filter (· ∉ reserved)
      = (literals out).map (·.token.toChar) := filter_toList_spelling (plain_of_postfixOrder order)
    _ = (literals (lexemes pattern)).map (·.token.toChar) := by rw [literals_postfixOrder order]
    _ = (spelling (lexemes pattern)).toList.filter (· ∉ reserved) :=
      (filter_toList_spelling plain_of_mem_lexemes).symm
    _ = pattern.toList.filter (· ∉ reserved) := by rw [spelling_lexemes]

/-- The postfix order of a pattern with balanced brackets has the tokens of the marked pattern, each
as often and at the same position, without the brackets. Its literals are those of the pattern, one
after another at their own positions, and so are the literal characters of its text. -/
theorem reordering_conserves_tokens (pattern : String)
    (balanced : overclosedAt pattern.toList = ∅ ∧ ¬Overopened pattern.toList) :
    ∃ out, postfixOrder pattern = .ok out ∧
      out.Perm ((marked (lexemes pattern)).filter (!·.token.isBracket)) ∧
      (∀ lexeme ∈ out, lexeme.token ≠ .openGroup ∧ lexeme.token ≠ .closeGroup) ∧
      out.filter (·.token.isOperand) = (lexemes pattern).filter (·.token.isOperand) ∧
      ∃ text, postfixText pattern = .ok text ∧
        text.toList.filter (· ∉ Token.reserved) = pattern.toList.filter (· ∉ Token.reserved) := by
  obtain ⟨text, written⟩ := exists_postfixText_iff.mpr balanced
  obtain ⟨out, known, _⟩ := postfixText_eq_ok_iff.mp written
  refine ⟨out, known, postfix_perm known, ?_, literals_postfixOrder known, text, written,
    filter_toList_postfixText written⟩
  intro lexeme member
  have free := (mem_marked_of_postfixOrder known lexeme member).2
  constructor
  · intro token
    simp [token, isBracket] at free
  · intro token
    simp [token, isBracket] at free

/-- The operators of the group find no operands, and are kept all the same. -/
theorem reordering_conserves_tokens_missing_operand :
    (overclosedAt "a(|*b)c".toList = ∅ ∧ ¬Overopened "a(|*b)c".toList) ∧
      postfixText "a(|*b)c" = .ok "a*b·|·c·" ∧
      ∃ text, postfixText "a(|*b)c" = .ok text ∧ text.toList.filter (· ∉ Token.reserved) = ['a', 'b', 'c'] := by
  have written : postfixText "a(|*b)c" = .ok "a*b·|·c·" := rfl
  have balanced := exists_postfixText_iff.mp ⟨_, written⟩
  obtain ⟨_, _, _, _, _, text, known, same⟩ := reordering_conserves_tokens "a(|*b)c" balanced
  exact ⟨balanced, written, text, known, same.trans (by decide)⟩

end PatternAutomata
