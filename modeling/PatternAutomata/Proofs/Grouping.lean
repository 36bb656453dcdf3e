import PatternAutomata.Proofs.Compilation
import PatternAutomata.Proofs.Positions

/-! Groups are read by themselves.

Nothing that waits outside a group is touched inside of it, and the markers at
its edges depend on the brackets alone. So a group can be replaced by another
one that has the same postfix order, whatever stands around it.
-/

set_option autoImplicit false

namespace PatternAutomata

open Token

variable {pattern : String} {waiting pending rest inner out emitted base : List Lexeme}
  {next opening closing : Lexeme}

/-! ## Over an open bracket -/

theorem Step.shielded (step : Step pending next emitted waiting) (opens : opening.token = .openGroup)
    (base : List Lexeme) :
    Step (pending ++ opening :: base) next emitted (waiting ++ opening :: base) := by
  cases step with
  | literal token => exact .literal token
  | openGroup token => exact .openGroup token
  | closeGroup token bracket free =>
    rw [List.append_assoc, List.cons_append]
    exact .closeGroup token bracket free
  | @operator _ kept _ operator ready blocked =>
    rw [List.append_assoc, List.cons_append]
    refine .operator operator ready fun top first => ?_
    cases kept with
    | nil =>
      cases first
      simp [opens, appliesBefore, precedence]
    | cons other kept => exact blocked top first

/-- Tokens with a postfix order are read over an open bracket as by themselves, and its closing
bracket takes off what still waits of them. -/
theorem reorder_shielded (known : reorder waiting inner = .ok out) (opens : opening.token = .openGroup)
    (closes : closing.token = .closeGroup) :
    reorder (waiting ++ opening :: base) (inner ++ closing :: rest) = (out ++ ·) <$> reorder base rest := by
  induction inner generalizing waiting out with
  | nil =>
    -- what the end of the text would put out, the closing bracket takes off instead
    rw [reorder] at known
    obtain ⟨rfl, free⟩ := release_eq_ok_iff.mp known
    exact (Step.closeGroup closes opens free).reorder_eq rest
  | cons next inner ih =>
    obtain ⟨emitted, left, step⟩ | ⟨token, free⟩ := exists_step waiting next
    · rw [step.reorder_eq, map_eq_ok_iff] at known
      obtain ⟨late, later, rfl⟩ := known
      rw [List.cons_append, (step.shielded opens base).reorder_eq, ih later, prepend_prepend]
    · rw [reorder_unopened token free] at known
      cases known

theorem reorder_group (known : reorder [] inner = .ok out) (opens : opening.token = .openGroup)
    (closes : closing.token = .closeGroup) :
    reorder base (opening :: inner ++ closing :: rest) = (out ++ ·) <$> reorder base rest := by
  have enter : Step base opening [] (opening :: base) := .openGroup opens
  rw [List.cons_append, enter.reorder_eq, prepend_nil]
  exact reorder_shielded known opens closes

/-! ## Markers around a group -/

namespace Token

theorem following_append_closeGroup (before : Token) (inside back : List Token) :
    before.following (inside ++ closeGroup :: back) =
      before.following inside ++ closeGroup :: closeGroup.following back := by
  induction inside generalizing before with
  | nil =>
    change gap before closeGroup ++ closeGroup :: closeGroup.following back = _
    rw [gap_eq_nil_of_binds rfl]
    rfl
  | cons next inside ih => simp only [List.cons_append, following, ih, List.append_assoc]

/-- The markers inside a group, in front of it and behind it depend on its brackets alone. -/
theorem exists_following_group (before : Token) (front : List Token) :
    ∃ early, ∀ inside back,
      before.following (front ++ openGroup :: inside ++ closeGroup :: back) =
        early ++ (openGroup :: explicit inside ++ closeGroup :: closeGroup.following back) := by
  induction front generalizing before with
  | nil =>
    refine ⟨gap before openGroup, fun inside back => ?_⟩
    rw [List.nil_append, List.cons_append, following, following_append_closeGroup,
      explicit_eq_following, List.cons_append]
  | cons next front ih =>
    obtain ⟨early, same⟩ := ih next
    refine ⟨gap before next ++ next :: early, fun inside back => ?_⟩
    simp only [List.cons_append, following, List.append_assoc] at same ⊢
    rw [same]

theorem explicit_group_append (inside back : List Token) :
    explicit (openGroup :: inside ++ closeGroup :: back) =
      openGroup :: explicit inside ++ closeGroup :: closeGroup.following back := by
  rw [List.cons_append, explicit_cons, following_append_closeGroup, explicit_eq_following inside,
    List.cons_append]

end Token

/-! ## Texts without their places -/

def bare (tokens : List Token) : List Lexeme := tokens.map (⟨0, ·⟩)

def placeless {α : Type} (result : Except Diagnostic α) : Except Fault α := result.mapError (·.fault)

theorem placeless_eq_ok_iff {α : Type} {result : Except Diagnostic α} {a : α} :
    placeless result = .ok a ↔ result = .ok a :=
  mapError_eq_ok_iff

theorem spelling_append (front back : List Lexeme) :
    spelling (front ++ back) = spelling front ++ spelling back := by
  rw [spelling, List.map_append, String.ofList_append]
  rfl

theorem spelling_prepend (early : List Lexeme) (result : Except Diagnostic (List Lexeme)) :
    spelling <$> (early ++ ·) <$> result = (spelling early ++ ·) <$> spelling <$> result := by
  cases result <;> simp [spelling_append]

/-- The postfix order in writing, while `waiting` holds what came before. -/
def spelledOrder (waiting : List Lexeme) (tokens : List Token) : Except Diagnostic String :=
  spelling <$> reorder waiting (bare tokens)

theorem placeless_postfixText (pattern : String) :
    placeless (postfixText pattern) =
      placeless (spelledOrder [] (explicit (pattern.toList.map ofChar))) := by
  have bared : bare (explicit (pattern.toList.map ofChar)) =
      (marked (lexemes pattern)).map (·.moved fun _ => 0) := by
    rw [← tokens_marked_lexemes, bare, List.map_map]
    rfl
  have moved := @reorder_moved [] (marked (lexemes pattern)) (fun _ => 0)
  rw [List.map_nil] at moved
  rw [spelledOrder, bared, moved, postfixText, postfixOrder]
  cases reorder [] (marked (lexemes pattern)) with
  | error diagnostic => rfl
  | ok out => simp [placeless, movedOrder, redrawnOrder, Except.map, Except.mapError, spelling, Lexeme.moved,
      Function.comp_def]

/-! ## Groups by themselves -/

variable {p q a b c : String} {tokens : List Token} {token : Token}

theorem postfixText_eq_ok_iff_spelledOrder :
    postfixText p = .ok a ↔ spelledOrder [] (explicit (p.toList.map ofChar)) = .ok a := by
  rw [← placeless_eq_ok_iff, placeless_postfixText, placeless_eq_ok_iff]

theorem spelledOrder_group (ordered : spelledOrder [] tokens = .ok a) (waiting : List Lexeme)
    (back : List Token) :
    spelledOrder waiting (openGroup :: tokens ++ closeGroup :: back) =
      (a ++ ·) <$> spelledOrder waiting back := by
  obtain ⟨out, known, rfl⟩ := map_eq_ok_iff.mp ordered
  have shape : bare (openGroup :: tokens ++ closeGroup :: back) =
      ⟨0, openGroup⟩ :: bare tokens ++ ⟨0, closeGroup⟩ :: bare back := by
    simp [bare]
  rw [spelledOrder, shape, reorder_group known rfl rfl, spelling_prepend]
  rfl

theorem spelledOrder_operator (operator : token.isOperator = true) (back : List Token) :
    spelledOrder [] (token :: back) = spelledOrder [⟨0, token⟩] back := by
  have step : Step [] ⟨0, token⟩ [] [⟨0, token⟩] :=
    .operator operator (List.forall_mem_nil _) (fun _ first => by cases first)
  have read := step.reorder_eq (bare back)
  rw [prepend_nil] at read
  exact congrArg (spelling <$> ·) read

theorem spelledOrder_waiting (operator : token.isOperator = true) :
    spelledOrder [⟨0, token⟩] [] = .ok (String.singleton token.toChar) := by
  have free : ∀ lexeme ∈ [(⟨0, token⟩ : Lexeme)], lexeme.token ≠ .openGroup := by
    intro lexeme member bracket
    cases List.mem_singleton.mp member
    obtain rfl : token = .openGroup := bracket
    cases operator
  have released : release [⟨0, token⟩] = .ok [⟨0, token⟩] := release_eq_ok_iff.mpr ⟨rfl, free⟩
  change spelling <$> release [⟨0, token⟩] = _
  rw [released, String.singleton_eq_ofList]
  rfl

theorem spelledOrder_connective (how : Connective) (ordered : spelledOrder [] tokens = .ok b) :
    spelledOrder [] (connective how :: openGroup :: tokens ++ [closeGroup]) =
      .ok (b ++ String.singleton (connective how).toChar) := by
  have operator : (connective how).isOperator = true := by cases how <;> rfl
  rw [List.cons_append, List.cons_append, spelledOrder_operator operator, ← List.cons_append,
    spelledOrder_group ordered, spelledOrder_waiting operator]
  rfl

theorem map_ofChar_group (x p y : String) :
    (x ++ "(" ++ p ++ ")" ++ y).toList.map ofChar =
      x.toList.map ofChar ++ openGroup :: p.toList.map ofChar ++ closeGroup :: y.toList.map ofChar := by
  simp [ofChar, concatMarker]

theorem postfixText_group_append (ordered : postfixText p = .ok a) (y : String)
    (behind : spelledOrder [] (closeGroup.following (y.toList.map ofChar)) = .ok c) :
    postfixText ("(" ++ p ++ ")" ++ y) = .ok (a ++ c) := by
  have tokens := map_ofChar_group "" p y
  rw [String.empty_append, String.toList_empty, List.map_nil, List.nil_append] at tokens
  rw [postfixText_eq_ok_iff_spelledOrder, tokens, explicit_group_append,
    spelledOrder_group (postfixText_eq_ok_iff_spelledOrder.mp ordered), behind]
  rfl

theorem postfixText_group (ordered : postfixText p = .ok a) : postfixText ("(" ++ p ++ ")") = .ok a := by
  have nothing : spelledOrder [] (closeGroup.following ("".toList.map ofChar)) = .ok "" := rfl
  have alone := postfixText_group_append ordered "" nothing
  rwa [String.append_empty, String.append_empty] at alone

theorem postfixText_quantified (ordered : postfixText p = .ok a) (how : Quantifier) :
    postfixText ("(" ++ p ++ ")" ++ String.singleton (quantifier how).toChar) =
      .ok (a ++ String.singleton (quantifier how).toChar) := by
  refine postfixText_group_append ordered _ ?_
  rw [String.toList_singleton, List.map_singleton, ofChar_toChar_quantifier]
  change spelledOrder [] [quantifier how] = _
  rw [spelledOrder_operator rfl, spelledOrder_waiting rfl]

theorem following_closeGroup_group (how : Connective) (inside : List Token) :
    closeGroup.following (connective how :: openGroup :: inside ++ [closeGroup]) =
        connective how :: openGroup :: explicit inside ++ [closeGroup] ∧
      closeGroup.following (openGroup :: inside ++ [closeGroup]) =
        connective .concat :: openGroup :: explicit inside ++ [closeGroup] := by
  have group : openGroup.following (inside ++ [closeGroup]) = explicit inside ++ [closeGroup] := by
    rw [following_append_closeGroup, explicit_eq_following]
    rfl
  constructor
  · change gap closeGroup (connective how) ++ connective how ::
      (gap (connective how) openGroup ++ openGroup :: openGroup.following (inside ++ [closeGroup])) = _
    rw [gap_eq_nil_of_binds rfl, gap_eq_nil_of_awaits rfl, group]
    rfl
  · change gap closeGroup openGroup ++ openGroup :: openGroup.following (inside ++ [closeGroup]) = _
    rw [gap_eq_marker rfl rfl, group]
    rfl

theorem postfixText_joined (first : postfixText p = .ok a) (second : postfixText q = .ok b) :
    postfixText ("(" ++ p ++ ")" ++ ("(" ++ q ++ ")")) = .ok (a ++ (b ++ "·")) ∧
      postfixText ("(" ++ p ++ ")" ++ ("|(" ++ q ++ ")")) = .ok (a ++ (b ++ "|")) := by
  have right := postfixText_eq_ok_iff_spelledOrder.mp second
  have group : ("(" ++ q ++ ")").toList.map ofChar = openGroup :: q.toList.map ofChar ++ [closeGroup] := by
    simp [ofChar, concatMarker]
  have barred : ("|(" ++ q ++ ")").toList.map ofChar =
      connective .union :: openGroup :: q.toList.map ofChar ++ [closeGroup] := by
    simp [ofChar, concatMarker]
  constructor
  · refine postfixText_group_append first _ ?_
    rw [group, (following_closeGroup_group .concat _).2]
    exact spelledOrder_connective .concat right
  · refine postfixText_group_append first _ ?_
    rw [barred, (following_closeGroup_group .union _).1]
    exact spelledOrder_connective .union right

/-! ## Groups in a pattern -/

/-- What is read first does not tell apart what is read alike behind it. -/
theorem spelledOrder_congr {first second : List Token}
    (alike : ∀ waiting, spelledOrder waiting first = spelledOrder waiting second)
    (early : List Token) (waiting : List Lexeme) :
    spelledOrder waiting (early ++ first) = spelledOrder waiting (early ++ second) := by
  induction early generalizing waiting with
  | nil => exact alike waiting
  | cons token early ih =>
    obtain ⟨emitted, left, step⟩ | ⟨closes, free⟩ := exists_step waiting ⟨0, token⟩
    · have run (tail : List Token) : spelledOrder waiting (token :: early ++ tail) =
          (spelling emitted ++ ·) <$> spelledOrder left (early ++ tail) := by
        change spelling <$> reorder waiting (⟨0, token⟩ :: bare (early ++ tail)) = _
        rw [step.reorder_eq, spelling_prepend]
        rfl
      rw [run, run, ih]
    · have run (tail : List Token) : spelledOrder waiting (token :: early ++ tail) =
          .error ⟨.unopenedGroup, some 0⟩ := by
        change spelling <$> reorder waiting (⟨0, token⟩ :: bare (early ++ tail)) = _
        rw [reorder_unopened closes free]
        rfl
      rw [run, run]

/-- In any surroundings a group may be replaced by one with the same postfix order. -/
theorem placeless_postfixText_group (first : postfixText p = .ok a) (second : postfixText q = .ok a)
    (x y : String) :
    placeless (postfixText (x ++ "(" ++ p ++ ")" ++ y)) =
      placeless (postfixText (x ++ "(" ++ q ++ ")" ++ y)) := by
  obtain ⟨early, same⟩ := exists_following_group openGroup (x.toList.map ofChar)
  rw [placeless_postfixText, placeless_postfixText, map_ofChar_group, map_ofChar_group,
    explicit_eq_following, explicit_eq_following, same, same]
  refine congrArg placeless (spelledOrder_congr (fun waiting => ?_) early [])
  rw [spelledOrder_group (postfixText_eq_ok_iff_spelledOrder.mp first),
    spelledOrder_group (postfixText_eq_ok_iff_spelledOrder.mp second)]

/-- A group has the postfix order of its inside, groups that are joined or repeated have those of
their insides with the operator behind, and a group can be replaced anywhere by another one with the
same postfix order. So brackets around a whole group change nothing. -/
theorem grouping_is_compositional :
    (∀ p q a b, postfixText p = .ok a → postfixText q = .ok b →
      postfixText ("(" ++ p ++ ")") = .ok a ∧
        postfixText ("(" ++ p ++ ")(" ++ q ++ ")") = .ok (a ++ b ++ "·") ∧
        postfixText ("(" ++ p ++ ")|(" ++ q ++ ")") = .ok (a ++ b ++ "|") ∧
        ∀ how : Quantifier,
          postfixText ("(" ++ p ++ ")" ++ String.singleton (Token.quantifier how).toChar) =
            .ok (a ++ String.singleton (Token.quantifier how).toChar)) ∧
      (∀ x y p q a, postfixText p = .ok a → postfixText q = .ok a →
        placeless (postfixText (x ++ "(" ++ p ++ ")" ++ y)) =
          placeless (postfixText (x ++ "(" ++ q ++ ")" ++ y))) ∧
      ∀ x y p a, postfixText p = .ok a →
        placeless (postfixText (x ++ "((" ++ p ++ "))" ++ y)) =
          placeless (postfixText (x ++ "(" ++ p ++ ")" ++ y)) := by
  refine ⟨fun p q a b first second => ?_, ?_, ?_⟩
  · obtain ⟨concatenated, united⟩ := postfixText_joined first second
    have between : ")(" = ")" ++ "(" := rfl
    have bar : ")|(" = ")" ++ "|(" := rfl
    rw [between, bar]
    simp only [String.append_assoc] at concatenated united ⊢
    exact ⟨postfixText_group first, concatenated, united, fun how => by
      simpa only [String.append_assoc] using postfixText_quantified first how⟩
  · intro x y p q a first second
    exact placeless_postfixText_group first second x y
  · intro x y p a ordered
    have opens : "((" = "(" ++ "(" := rfl
    have closes : "))" = ")" ++ ")" := rfl
    have double : x ++ "((" ++ p ++ "))" ++ y = x ++ "(" ++ ("(" ++ p ++ ")") ++ ")" ++ y := by
      rw [opens, closes]
      simp only [String.append_assoc]
    rw [double]
    exact placeless_postfixText_group (postfixText_group ordered) ordered x y

theorem grouping_is_compositional_missing_operand :
    postfixText "(a|)(+)" = .ok "a|+·" ∧ postfixText "c(ab)*" = .ok "cab·*·" ∧
      postfixText "c(a·b)*" = .ok "cab·*·" ∧ postfixText "c((ab))*" = .ok "cab·*·" := by
  have bar : postfixText "a|" = .ok "a|" := rfl
  have plus : postfixText "+" = .ok "+" := rfl
  have implied : postfixText "ab" = .ok "ab·" := rfl
  have written : postfixText "a·b" = .ok "ab·" := rfl
  have whole : postfixText "c(ab)*" = .ok "cab·*·" := rfl
  obtain ⟨groups, congruent, redundant⟩ := grouping_is_compositional
  have replaced := congruent "c" "*" "a·b" "ab" "ab·" written implied
  have doubled := redundant "c" "*" "ab" "ab·" implied
  refine ⟨(groups "a|" "+" "a|" "+" bar plus).2.1, whole, ?_, ?_⟩
  · exact placeless_eq_ok_iff.mp (replaced.trans (placeless_eq_ok_iff.mpr whole))
  · exact placeless_eq_ok_iff.mp (doubled.trans (placeless_eq_ok_iff.mpr whole))

end PatternAutomata
