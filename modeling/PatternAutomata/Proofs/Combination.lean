import PatternAutomata.Proofs.Grouping
import PatternAutomata.Proofs.Marking
import PatternAutomata.Proofs.Refusals

/-! Patterns put into groups and combined.

A group that has a literal is an operand, so operators between groups and behind
them find what they need, and languages combine as the operators say. A group
without one puts nothing out, and every operator that depends on it is refused.
-/

set_option autoImplicit false

namespace PatternAutomata

open scoped Computability

open Token

variable {p q : String} {e other : Expr} {inner front out late : List Lexeme}
  {stack : List Expr} {opening closing next : Lexeme} {first second : Nfa}

/-! ## Groups in the grammar -/

theorem Derives.atom_group (derives : Derives .union p.toList e) :
    Derives .atom ("(" ++ p ++ ")").toList e := by
  simpa using Derives.group derives

theorem Derives.joined_groups (one : Derives .union p.toList e) (two : Derives .union q.toList other) :
    Derives .union ("(" ++ p ++ ")(" ++ q ++ ")").toList (.joined .concat e other) ∧
      Derives .union ("(" ++ p ++ ")|(" ++ q ++ ")").toList (.joined .union e other) := by
  have left : Derives .concat ("(" ++ p ++ ")").toList e := .repetition (.atom one.atom_group)
  have right : Derives .repetition ("(" ++ q ++ ")").toList other := .atom two.atom_group
  constructor
  · have joined : Derives .union _ _ := .concat (.implied left right)
    simpa using joined
  · have joined : Derives .union _ _ := .union (.concat left) (.repetition right)
    simpa using joined

theorem Derives.quantified_group (derives : Derives .union p.toList e) (how : Quantifier) :
    Derives .union ("(" ++ p ++ ")" ++ String.singleton (Token.quantifier how).toChar).toList
      (.repeated how e) := by
  have repeated : Derives .union _ _ :=
    .concat (.repetition (.quantified how (.atom derives.atom_group)))
  simpa using repeated

/-! ## Groups in the postfix order -/

theorem marked_cons_of_awaits (awaits : next.token.awaitsOperand = true) (rest : List Lexeme) :
    marked (next :: rest) = next :: marked rest := by
  cases rest with
  | nil => rfl
  | cons second rest => simp [marked, meets, awaits]

theorem marked_append_of_binds (binds : next.token.bindsLeft = true) (front back : List Lexeme) :
    marked (front ++ next :: back) = marked front ++ marked (next :: back) := by
  induction front with
  | nil => rfl
  | cons head front ih =>
    cases front with
    | nil => simp [marked, meets, binds]
    | cons second front =>
      simp only [List.cons_append, marked_cons_cons, List.append_assoc] at ih ⊢
      rw [ih]

theorem marked_group (opens : opening.token = openGroup) (closes : closing.token = closeGroup)
    (inner back : List Lexeme) :
    marked (opening :: inner ++ closing :: back) = opening :: marked inner ++ marked (closing :: back) := by
  have awaits : opening.token.awaitsOperand = true := by rw [opens]; rfl
  have binds : closing.token.bindsLeft = true := by rw [closes]; rfl
  rw [List.cons_append, marked_cons_of_awaits awaits, marked_append_of_binds binds]
  rfl

theorem lexemes_group (p : String) :
    lexemes ("(" ++ p ++ ")") =
      ⟨0, .openGroup⟩ :: (lexemes p).map (·.moved (1 + ·)) ++ [⟨p.length + 1, .closeGroup⟩] := by
  have opens : lexemes "(" = [⟨0, .openGroup⟩] := rfl
  have closes : lexemes ")" = [⟨0, .closeGroup⟩] := rfl
  have length : ("(" ++ p).length = p.length + 1 := by
    rw [String.length_append, Nat.add_comm]
    rfl
  simp only [lexemes_append, opens, closes, length]
  rfl

theorem reorder_map_moved (ordered : postfixOrder p = .ok out) (place : Nat → Nat) :
    reorder [] ((marked (lexemes p)).map (·.moved place)) = .ok (out.map (·.moved place)) := by
  have moved := @reorder_moved [] (marked (lexemes p)) place
  rw [List.map_nil] at moved
  rw [moved, show reorder [] (marked (lexemes p)) = .ok out from ordered]
  rfl

/-- A group is reordered by itself, and what follows is marked as its closing bracket says. -/
theorem postfixOrder_group_append {y : String} {tail : List Lexeme} (ordered : postfixOrder p = .ok out)
    (behind : marked (⟨p.length + 1, .closeGroup⟩ :: (lexemes y).map (·.moved (p.length + 2 + ·))) =
      ⟨p.length + 1, .closeGroup⟩ :: tail) (rest : reorder [] tail = .ok late) :
    postfixOrder ("(" ++ p ++ ")" ++ y) = .ok (out.map (·.moved (1 + ·)) ++ late) := by
  have length : ("(" ++ p ++ ")").length = p.length + 2 := by
    simp only [String.length_append]
    change 1 + p.length + 1 = p.length + 2
    omega
  have shape : lexemes ("(" ++ p ++ ")" ++ y) = ⟨0, .openGroup⟩ :: (lexemes p).map (·.moved (1 + ·)) ++
      ⟨p.length + 1, .closeGroup⟩ :: (lexemes y).map (·.moved (p.length + 2 + ·)) := by
    simp only [lexemes_append _ y, lexemes_group, length, List.append_assoc, List.singleton_append]
  have inside := reorder_map_moved ordered (1 + ·)
  rw [postfixOrder, shape, marked_group rfl rfl, marked_moved, behind, reorder_group inside rfl rfl, rest]
  rfl

theorem reorder_operator_first (operator : next.token.isOperator = true) (rest : List Lexeme) :
    reorder [] (next :: rest) = reorder [next] rest := by
  have step : Step [] next [] [next] :=
    .operator operator (List.forall_mem_nil _) fun _ first => by cases first
  simp only [step.reorder_eq, prepend_nil]

theorem reorder_waiting (operator : next.token.isOperator = true) : reorder [next] [] = .ok [next] := by
  have free : next.token ≠ .openGroup := by
    intro bracket
    simp [bracket, isOperator, precedence] at operator
  exact release_eq_ok_iff.mpr ⟨rfl, by simp [free]⟩

theorem reorder_operator_group (operator : next.token.isOperator = true)
    (ordered : reorder [] inner = .ok out) (opens : opening.token = .openGroup)
    (closes : closing.token = .closeGroup) :
    reorder [] (next :: opening :: inner ++ [closing]) = .ok (out ++ [next]) := by
  simp only [List.cons_append, reorder_operator_first operator]
  rw [← List.cons_append, reorder_group ordered opens closes, reorder_waiting operator]
  rfl

theorem postfixOrder_quantified (ordered : postfixOrder p = .ok out) (how : Quantifier) :
    postfixOrder ("(" ++ p ++ ")" ++ String.singleton (quantifier how).toChar) =
      .ok (out.map (·.moved (1 + ·)) ++ [⟨p.length + 2, quantifier how⟩]) := by
  have last : lexemes (String.singleton (quantifier how).toChar) = [⟨0, quantifier how⟩] := by
    cases how <;> rfl
  have behind : marked (⟨p.length + 1, closeGroup⟩ ::
      (lexemes (String.singleton (quantifier how).toChar)).map (·.moved (p.length + 2 + ·))) =
      ⟨p.length + 1, closeGroup⟩ :: [⟨p.length + 2, quantifier how⟩] := by
    rw [last]
    rfl
  have operator : (⟨p.length + 2, quantifier how⟩ : Lexeme).token.isOperator = true := rfl
  exact postfixOrder_group_append ordered behind
    ((reorder_operator_first operator []).trans (reorder_waiting operator))

theorem marked_lexemes_group (q : String) (place : Nat → Nat) :
    marked ((lexemes ("(" ++ q ++ ")")).map (·.moved place)) =
      ⟨place 0, openGroup⟩ :: (marked (lexemes q)).map (·.moved fun old => place (1 + old)) ++
        [⟨place (q.length + 1), closeGroup⟩] := by
  rw [marked_moved, lexemes_group, marked_group rfl rfl, marked_moved]
  simp only [marked, List.map_cons, List.map_append, List.map_map, List.map_nil, List.cons_append]
  rfl

def joining : Connective → String
  | .concat => ""
  | .union => "|"

/-- Behind a group a connective, written or not, has the position of the first character there. -/
theorem marked_joining (q : String) (how : Connective) (spot : Nat) :
    ∃ (opening closing : Lexeme) (place : Nat → Nat),
      opening.token = openGroup ∧ closing.token = closeGroup ∧
      marked (⟨spot, closeGroup⟩ ::
        (lexemes (joining how ++ ("(" ++ q ++ ")"))).map (·.moved (spot + 1 + ·))) =
      ⟨spot, closeGroup⟩ :: (⟨spot + 1, connective how⟩ :: opening ::
        (marked (lexemes q)).map (·.moved place) ++ [closing]) := by
  cases how with
  | concat =>
    have group := marked_lexemes_group q (spot + 1 + ·)
    have shape : joining .concat ++ ("(" ++ q ++ ")") = "(" ++ q ++ ")" := String.empty_append
    simp only [lexemes_group, List.cons_append, List.map_cons] at group
    simp only [shape, lexemes_group, List.cons_append, List.map_cons]
    rw [marked_cons_cons, group]
    exact ⟨_, _, _, rfl, rfl, rfl⟩
  | union =>
    have group := marked_lexemes_group q fun old => spot + 1 + (1 + old)
    have bar : lexemes "|" = [⟨0, connective .union⟩] := rfl
    have length : "|".length = 1 := rfl
    have shape : lexemes (joining .union ++ ("(" ++ q ++ ")")) =
        ⟨0, connective .union⟩ :: (lexemes ("(" ++ q ++ ")")).map (·.moved (1 + ·)) := by
      rw [joining, lexemes_append "|", bar, length]
      rfl
    have moved : ((lexemes ("(" ++ q ++ ")")).map (·.moved (1 + ·))).map (·.moved (spot + 1 + ·)) =
        (lexemes ("(" ++ q ++ ")")).map (·.moved fun old => spot + 1 + (1 + old)) := by
      rw [List.map_map]
      rfl
    rw [shape, List.map_cons, moved, marked_cons_cons, marked_cons_of_awaits rfl, group]
    exact ⟨_, _, _, rfl, rfl, rfl⟩

theorem postfixOrder_joined (one : postfixOrder p = .ok out) (two : postfixOrder q = .ok late)
    (how : Connective) :
    ∃ place, postfixOrder ("(" ++ p ++ ")" ++ (joining how ++ ("(" ++ q ++ ")"))) =
      .ok (out.map (·.moved (1 + ·)) ++ (late.map (·.moved place) ++ [⟨p.length + 2, connective how⟩])) := by
  obtain ⟨opening, closing, place, opens, closes, behind⟩ := marked_joining q how (p.length + 1)
  have operator : (⟨p.length + 2, connective how⟩ : Lexeme).token.isOperator = true := by
    cases how <;> rfl
  have right := reorder_operator_group operator (reorder_map_moved two place) opens closes
  exact ⟨place, postfixOrder_group_append one behind right⟩

/-! ## Operators without operands -/

/-- A compiled pattern leaves at most one expression on hand, and none if it has no literal. -/
theorem foldlM_push_moved (known : compile p = .ok first) (ordered : postfixOrder p = .ok out)
    (place : Nat → Nat) :
    ∃ whole : List Expr, whole.length ≤ 1 ∧ ((∀ c ∈ p.toList, c ∈ reserved) → whole = []) ∧
      ∀ read, (out.map (·.moved place)).foldlM Expr.push read = .ok (whole ++ read) := by
  rcases compile_eq_ok_cases known with ⟨depth, same, _⟩ | ⟨e, derives, _⟩
  · obtain rfl : out = [] := Except.ok.inj (ordered.symm.trans (postfixOrder_nested same))
    exact ⟨[], Nat.zero_le 1, fun _ => rfl, fun read => rfl⟩
  · obtain ⟨tokens, found, spelled⟩ := derives.postfixOrder
    obtain rfl : out = tokens := Except.ok.inj (ordered.symm.trans found)
    have kept : (out.map (·.moved place)).map (·.token) = e.postorder := by
      rw [List.map_map]
      exact spelled
    refine ⟨[e], Nat.le_refl 1, fun bare => ?_, fun read => Expr.foldlM_push_postorder kept⟩
    obtain ⟨c, member, free⟩ := derives.exists_literal
    exact absurd (bare c member) free

theorem bare_group (known : compile p = .ok first) (bare : ∀ c ∈ p.toList, c ∈ reserved) :
    (∃ depth, p.toList = nested depth) ∧ first = .empty ∧ first.language = 1 ∧
      postfixText ("(" ++ p ++ ")") = .ok "" := by
  obtain ⟨depth, same, rfl⟩ := eq_nested_of_reserved known bare
  have nothing : postfixText p = .ok "" := by
    rw [postfixText, postfixOrder_nested same]
    rfl
  exact ⟨⟨depth, same⟩, rfl, Nfa.language_empty, postfixText_group nothing⟩

theorem build_append_refused (known : front.foldlM Expr.push [] = .ok stack)
    (refused : next.token.Refused stack.length) :
    build (front ++ [next]) = .error ⟨next.token.refusal, some next.position⟩ := by
  have failed : (front ++ [next]).foldlM Expr.push [] =
      .error ⟨next.token.refusal, some next.position⟩ := by
    rw [List.foldlM_append, known]
    change [next].foldlM Expr.push stack = _
    rw [List.foldlM_cons, Expr.push_refused refused]
    rfl
  rw [build, Expr.ofPostfix, failed]
  rfl

/-- An operator behind groups that have too few literals is refused at its own place. -/
theorem compile_joined_refused (one : compile p = .ok first) (two : compile q = .ok second)
    (bare : (∀ c ∈ p.toList, c ∈ reserved) ∨ ∀ c ∈ q.toList, c ∈ reserved) (how : Connective) :
    compile ("(" ++ p ++ ")" ++ (joining how ++ ("(" ++ q ++ ")"))) =
      .error ⟨.missingOperand (.connective how), some (p.length + 2)⟩ := by
  obtain ⟨out, left, _⟩ := compile_eq_ok_iff.mp one
  obtain ⟨late, right, _⟩ := compile_eq_ok_iff.mp two
  obtain ⟨place, ordered⟩ := postfixOrder_joined left right how
  obtain ⟨here, few, none, read⟩ := foldlM_push_moved one left (1 + ·)
  obtain ⟨there, scarce, absent, follow⟩ := foldlM_push_moved two right place
  have known : (out.map (·.moved (1 + ·)) ++ late.map (·.moved place)).foldlM Expr.push [] =
      .ok (there ++ (here ++ [])) := by
    rw [List.foldlM_append, read]
    exact follow (here ++ [])
  have refused : (connective how).Refused (there ++ (here ++ [])).length := by
    change ((there ++ (here ++ [])).length : Int) < 2
    rcases bare with bare | bare
    · rw [none bare]
      simp only [List.append_nil]
      omega
    · rw [absent bare]
      simp only [List.nil_append, List.append_nil]
      omega
  rw [compile, ordered, ← List.append_assoc]
  exact build_append_refused known refused

theorem compile_quantified_refused (known : compile p = .ok first)
    (bare : ∀ c ∈ p.toList, c ∈ reserved) (how : Quantifier) :
    compile ("(" ++ p ++ ")" ++ String.singleton (quantifier how).toChar) =
      .error ⟨.missingOperand (.quantifier how), some (p.length + 2)⟩ := by
  obtain ⟨out, ordered, _⟩ := compile_eq_ok_iff.mp known
  obtain ⟨here, _, none, read⟩ := foldlM_push_moved known ordered (1 + ·)
  have nothing : (out.map (·.moved (1 + ·))).foldlM Expr.push [] = .ok [] := by
    rw [read, none bare]
    rfl
  rw [compile, postfixOrder_quantified ordered how]
  have refused : (quantifier how).Refused ([] : List Expr).length := Int.zero_lt_one
  exact build_append_refused nothing refused

/-! ## Combined languages -/

theorem recognizes_joined_groups (one : Derives .union p.toList e) (two : Derives .union q.toList other) :
    Recognizes ("(" ++ p ++ ")(" ++ q ++ ")") (e.toNfa.language * other.toNfa.language) ∧
      Recognizes ("(" ++ p ++ ")|(" ++ q ++ ")") (e.toNfa.language + other.toNfa.language) := by
  obtain ⟨concatenated, united⟩ := one.joined_groups two
  simp only [e.language_toNfa, other.language_toNfa]
  have product : e.language * other.language = (Expr.joined .concat e other).toNfa.language := by
    rw [Expr.language_toNfa, Expr.language]
  have sum : e.language + other.language = (Expr.joined .union e other).toNfa.language := by
    rw [Expr.language_toNfa, Expr.language]
  rw [product, sum]
  exact ⟨recognizes_of_compile concatenated.compile, recognizes_of_compile united.compile⟩

theorem recognizes_quantified_group (derives : Derives .union p.toList e) (how : Quantifier) :
    Recognizes ("(" ++ p ++ ")" ++ String.singleton (quantifier how).toChar)
      (Expr.repeated how e).language := by
  rw [← Expr.language_toNfa]
  exact recognizes_of_compile (derives.quantified_group how).compile

/-- Groups of patterns that compile combine as languages do, if they have literals. A pattern without
one is brackets around nothing and accepts the empty text on its own. But a group of it puts out no
operand, and an operator that stands behind it or joins it is refused. -/
theorem combining_patterns_combines_languages (one : compile p = .ok first)
    (two : compile q = .ok second) :
    ((∃ c ∈ p.toList, c ∉ reserved) → (∃ c ∈ q.toList, c ∉ reserved) →
      Recognizes ("(" ++ p ++ ")(" ++ q ++ ")") (first.language * second.language) ∧
        Recognizes ("(" ++ p ++ ")|(" ++ q ++ ")") (first.language + second.language)) ∧
    ((∃ c ∈ p.toList, c ∉ reserved) →
      Recognizes ("(" ++ p ++ ")*") first.language∗ ∧
        Recognizes ("(" ++ p ++ ")+") (first.language * first.language∗) ∧
        Recognizes ("(" ++ p ++ ")?") (first.language + 1)) ∧
    ((∀ c ∈ p.toList, c ∈ reserved) ∨ (∀ c ∈ q.toList, c ∈ reserved) →
      compile ("(" ++ p ++ ")(" ++ q ++ ")") =
          .error ⟨.missingOperand (.connective .concat), some (p.length + 2)⟩ ∧
        compile ("(" ++ p ++ ")|(" ++ q ++ ")") =
          .error ⟨.missingOperand (.connective .union), some (p.length + 2)⟩) ∧
    ((∀ c ∈ p.toList, c ∈ reserved) → ∀ how : Quantifier,
      compile ("(" ++ p ++ ")" ++ String.singleton (quantifier how).toChar) =
        .error ⟨.missingOperand (.quantifier how), some (p.length + 2)⟩) ∧
    ((∀ c ∈ p.toList, c ∈ reserved) →
      (∃ depth, p.toList = nested depth) ∧ first = .empty ∧ first.language = 1 ∧
        postfixText ("(" ++ p ++ ")") = .ok "") := by
  refine ⟨fun literal other => ?_, fun literal => ?_, fun bare => ?_, fun bare how => ?_,
    bare_group one⟩
  · obtain ⟨e, derives, rfl⟩ := derives_of_literal one literal
    obtain ⟨f, follows, rfl⟩ := derives_of_literal two other
    exact recognizes_joined_groups derives follows
  · obtain ⟨e, derives, rfl⟩ := derives_of_literal one literal
    have combined := recognizes_quantified_group derives
    simp only [String.append_assoc] at combined ⊢
    simp only [e.language_toNfa]
    exact ⟨combined .star, combined .plus, combined .optional⟩
  · have between : ")(" = ")" ++ "(" := rfl
    have bar : ")|(" = ")" ++ "|(" := rfl
    have concatenated := compile_joined_refused one two bare .concat
    have united := compile_joined_refused one two bare .union
    rw [between, bar]
    simp only [joining, String.append_assoc, String.empty_append] at concatenated united ⊢
    exact ⟨concatenated, united⟩
  · exact compile_quantified_refused one bare how

theorem combining_patterns_combines_languages_empty_group :
    Recognizes "(a)(b|c)" ({['a']} * ({['b']} + {['c']})) ∧ Recognizes "(a)*" {['a']}∗ ∧
      compile "(a)()" = .error ⟨.missingOperand (.connective .concat), some 3⟩ ∧
      compile "()?" = .error ⟨.missingOperand (.quantifier .optional), some 2⟩ ∧
      postfixText "(())" = .ok "" := by
  have a : compile "a" = .ok (Expr.literal 'a').toNfa := by decide
  have union : compile "b|c" = .ok (Expr.joined .union (.literal 'b') (.literal 'c')).toNfa := by
    decide +kernel
  have nothing : compile "" = .ok .empty := by decide
  have shape : "()".toList = nested 1 := rfl
  have one : ∃ c ∈ "a".toList, c ∉ reserved := ⟨'a', by decide, by decide⟩
  have two : ∃ c ∈ "b|c".toList, c ∉ reserved := ⟨'b', by decide, by decide⟩
  have bare : ∀ c ∈ "".toList, c ∈ reserved := List.forall_mem_nil _
  have joined := (combining_patterns_combines_languages a union).1 one two
  have starred := (combining_patterns_combines_languages a nothing).2.1 one
  simp only [Expr.language_toNfa, Expr.language] at joined starred
  exact ⟨joined.1, starred.1,
    ((combining_patterns_combines_languages a nothing).2.2.1 (.inr bare)).1,
    (combining_patterns_combines_languages nothing nothing).2.2.2.1 bare .optional,
    ((combining_patterns_combines_languages (compile_nested shape) nothing).2.2.2.2
      (mem_reserved_of_nested shape)).2.2.2⟩

/-- The empty group and a letter compile, but not the letter behind the empty group. -/
theorem empty_group_is_no_operand :
    compile "" = .ok .empty ∧ compile "a" = .ok (.literal 'a') ∧
      ¬∃ automaton, compile ("(" ++ "" ++ ")(" ++ "a" ++ ")") = .ok automaton := by
  have failed : compile ("(" ++ "" ++ ")(" ++ "a" ++ ")") =
      .error ⟨.missingOperand (.connective .concat), some 2⟩ := by decide
  refine ⟨by decide, by decide, fun ⟨automaton, known⟩ => ?_⟩
  rw [failed] at known
  cases known

end PatternAutomata
