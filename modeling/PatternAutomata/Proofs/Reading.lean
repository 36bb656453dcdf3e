import PatternAutomata.Compile
import PatternAutomata.Proofs.Reordering

/-! Reading tokens in operands-first order is inverse to listing them.

The expressions on hand, written one after the other, are always the tokens
read so far. So one expression is left exactly when the tokens list it, and
none is left only when there were no tokens.
-/

set_option autoImplicit false

namespace PatternAutomata

namespace Expr

variable {read after : List Expr} {next : Lexeme} {tokens : List Lexeme} {e : Expr}

/-- The tokens that the expressions on hand, latest first, were read from. -/
def listing : List Expr → List Token
  | [] => []
  | latest :: earlier => listing earlier ++ latest.postorder

theorem push_literal {c : Char} (token : next.token = .literal c) :
    push read next = .ok (.literal c :: read) := by
  simp only [push, token]

theorem push_connective {how : Connective} {left right : Expr}
    (token : next.token = .connective how) :
    push (right :: left :: read) next = .ok (.joined how left right :: read) := by
  simp only [push, token]

theorem push_quantifier {how : Quantifier} {body : Expr} (token : next.token = .quantifier how) :
    push (body :: read) next = .ok (.repeated how body :: read) := by
  simp only [push, token]

theorem push_eq_ok (known : push read next = .ok after) :
    (∃ c, next.token = .literal c ∧ after = .literal c :: read) ∨
      (∃ how right left rest, next.token = .connective how ∧ read = right :: left :: rest ∧
        after = .joined how left right :: rest) ∨
      ∃ how body rest, next.token = .quantifier how ∧ read = body :: rest ∧
        after = .repeated how body :: rest := by
  unfold push at known
  split at known
  · exact .inl ⟨_, ‹_›, (Except.ok.inj known).symm⟩
  · exact .inr (.inl ⟨_, _, _, _, ‹_›, rfl, (Except.ok.inj known).symm⟩)
  · exact .inr (.inr ⟨_, _, _, ‹_›, rfl, (Except.ok.inj known).symm⟩)
  -- what is left are operators without operands, and brackets
  all_goals cases known

theorem listing_push (known : push read next = .ok after) :
    listing after = listing read ++ [next.token] := by
  obtain ⟨c, token, rfl⟩ | ⟨how, right, left, rest, token, rfl, rfl⟩ |
    ⟨how, body, rest, token, rfl, rfl⟩ := push_eq_ok known
  · rw [token]
    rfl
  · simp only [listing, postorder, token, List.append_assoc]
  · simp only [listing, postorder, token, List.append_assoc]

theorem listing_foldlM_push (known : tokens.foldlM push read = .ok after) :
    listing after = listing read ++ tokens.map (·.token) := by
  induction tokens generalizing read with
  | nil =>
    obtain rfl : read = after := Except.ok.inj known
    rw [List.map_nil, List.append_nil]
  | cons next rest ih =>
    rw [List.foldlM_cons, bind_eq_ok_iff] at known
    obtain ⟨middle, pushed, later⟩ := known
    rw [ih later, listing_push pushed, List.map_cons, List.append_assoc, List.singleton_append]

/-- Over any expressions on hand, the tokens of an expression add that expression. -/
theorem foldlM_push_postorder (spelled : tokens.map (·.token) = e.postorder) :
    tokens.foldlM push read = .ok (e :: read) := by
  induction e generalizing read tokens with
  | literal c =>
    obtain ⟨next, rfl, token⟩ := List.map_eq_singleton_iff.mp spelled
    rw [List.foldlM_cons, push_literal token]
    rfl
  | joined how left right leftIH rightIH =>
    obtain ⟨operands, last, rfl, inside, operator⟩ := List.map_eq_append_iff.mp spelled
    obtain ⟨first, second, rfl, before, behind⟩ := List.map_eq_append_iff.mp inside
    obtain ⟨next, rfl, token⟩ := List.map_eq_singleton_iff.mp operator
    rw [List.foldlM_append, List.foldlM_append, leftIH before]
    -- the right operand is read with the left one on hand
    change second.foldlM push (left :: read) >>= [next].foldlM push = _
    rw [rightIH behind]
    change push (right :: left :: read) next >>= pure = _
    rw [push_connective token]
    rfl
  | repeated how body ih =>
    obtain ⟨operand, last, rfl, inside, operator⟩ := List.map_eq_append_iff.mp spelled
    obtain ⟨next, rfl, token⟩ := List.map_eq_singleton_iff.mp operator
    rw [List.foldlM_append, ih inside]
    change push (body :: read) next >>= pure = _
    rw [push_quantifier token]
    rfl

theorem finish_eq_some_iff : finish read = .ok (some e) ↔ read = [e] := by
  unfold finish
  split <;> simp_all

theorem finish_eq_none_iff : finish read = .ok none ↔ read = [] := by
  unfold finish
  split <;> simp_all

theorem ofPostfix_eq_some_iff :
    ofPostfix tokens = .ok (some e) ↔ tokens.map (·.token) = e.postorder := by
  rw [ofPostfix, bind_eq_ok_iff]
  simp only [finish_eq_some_iff]
  constructor
  · intro ⟨read, known, whole⟩
    subst whole
    exact (listing_foldlM_push known).symm
  · intro spelled
    exact ⟨[e], foldlM_push_postorder spelled, rfl⟩

theorem ofPostfix_eq_none_iff : ofPostfix tokens = .ok none ↔ tokens = [] := by
  rw [ofPostfix, bind_eq_ok_iff]
  simp only [finish_eq_none_iff]
  constructor
  · intro ⟨read, known, nothing⟩
    subst nothing
    exact List.map_eq_nil_iff.mp (listing_foldlM_push known).symm
  · intro empty
    exact ⟨[], by rw [empty]; rfl, rfl⟩

end Expr

theorem build_eq_ok_iff {tokens : List Lexeme} {automaton : Nfa} :
    build tokens = .ok automaton ↔
      tokens = [] ∧ automaton = .empty ∨
        ∃ e : Expr, tokens.map (·.token) = e.postorder ∧ automaton = e.toNfa := by
  rw [build, map_eq_ok_iff]
  constructor
  · intro ⟨whole, known, same⟩
    cases whole with
    | none => exact .inl ⟨Expr.ofPostfix_eq_none_iff.mp known, same.symm⟩
    | some e => exact .inr ⟨e, Expr.ofPostfix_eq_some_iff.mp known, same.symm⟩
  · intro outcome
    obtain ⟨empty, rfl⟩ | ⟨e, spelled, rfl⟩ := outcome
    · exact ⟨none, Expr.ofPostfix_eq_none_iff.mpr empty, rfl⟩
    · exact ⟨some e, Expr.ofPostfix_eq_some_iff.mpr spelled, rfl⟩

theorem compile_eq_ok_iff {pattern : String} {automaton : Nfa} :
    compile pattern = .ok automaton ↔
      ∃ tokens, postfixOrder pattern = .ok tokens ∧ build tokens = .ok automaton := by
  rw [compile, bind_eq_ok_iff]

end PatternAutomata
