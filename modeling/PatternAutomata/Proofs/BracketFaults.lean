import Mathlib.Data.List.Count
import Mathlib.Data.Set.Basic
import PatternAutomata.Brackets
import PatternAutomata.Proofs.Positions
import PatternAutomata.Proofs.Refusals

/-! Which bracket is reported, and when.

Brackets fail on their own: neither operands nor operators nor markers have a
part in it. The waiting list holds the opening brackets that are not closed yet,
so the first closing bracket that finds none there is reported, and otherwise
the last opening bracket that is never closed.
-/

set_option autoImplicit false

namespace PatternAutomata

open Token

variable {pattern : String} {waiting pending rest tokens emitted : List Lexeme} {next opening : Lexeme}
  {diagnostic : Diagnostic}

/-! ## Brackets on their own -/

def bracketed (lexemes : List Lexeme) : List Lexeme := lexemes.filter (·.token.isBracket)

theorem bracketed_append (front back : List Lexeme) :
    bracketed (front ++ back) = bracketed front ++ bracketed back :=
  List.filter_append ..

theorem bracketed_cons (next : Lexeme) (rest : List Lexeme) :
    bracketed (next :: rest) = bracketed [next] ++ bracketed rest :=
  bracketed_append [next] rest

theorem bracketed_cons_of_bracket (bracket : next.token.isBracket = true) :
    bracketed (next :: rest) = next :: bracketed rest :=
  List.filter_cons_of_pos bracket

theorem bracketed_cons_of_free (free : next.token.isBracket = false) :
    bracketed (next :: rest) = bracketed rest :=
  List.filter_cons_of_neg (by simp [free])

theorem bracketed_of_free (free : ∀ lexeme ∈ waiting, lexeme.token.isBracket = false) :
    bracketed waiting = [] :=
  List.filter_eq_nil_iff.mpr fun lexeme member => by simp [free lexeme member]

theorem forall_mem_bracketed {p : Lexeme → Prop} (all : ∀ lexeme ∈ waiting, p lexeme) :
    ∀ lexeme ∈ bracketed waiting, p lexeme := fun lexeme member =>
  all lexeme (List.mem_filter.mp member).1

theorem bracketed_marked (read : List Lexeme) : bracketed (marked read) = bracketed read := by
  fun_induction marked read with
  | case1 => rfl
  | case2 => rfl
  | case3 first second rest joins ih =>
    have marker : bracketed (⟨second.position, .connective .concat⟩ :: marked (second :: rest)) =
        bracketed (marked (second :: rest)) := bracketed_cons_of_free rfl
    rw [bracketed_cons first, marker, ih, ← bracketed_cons]
  | case4 first second rest apart ih => rw [bracketed_cons first, ih, ← bracketed_cons]

theorem release_bracketed_error_iff :
    release (bracketed waiting) = .error diagnostic ↔ release waiting = .error diagnostic := by
  induction waiting with
  | nil => rfl
  | cons top waiting ih =>
    by_cases bracket : top.token = .openGroup
    · rw [bracketed_cons_of_bracket (by rw [bracket]; rfl), release, release, if_pos bracket,
        if_pos bracket]
    · have skipped : release (top :: waiting) = .error diagnostic ↔
          release waiting = .error diagnostic := by
        rw [release, if_neg bracket, map_eq_error_iff]
      rw [skipped, ← ih]
      cases kind : top.token.isBracket with
      | false => rw [bracketed_cons_of_free kind]
      | true => rw [bracketed_cons_of_bracket kind, release, if_neg bracket, map_eq_error_iff]

/-- Among brackets alone a bracket is the same step, and any other token is none. -/
theorem Step.bracketed (step : Step pending next emitted waiting) :
    next.token.isBracket = false ∧ bracketed waiting = bracketed pending ∨
      next.token.isBracket = true ∧
        ∃ inner, Step (bracketed pending) next inner (bracketed waiting) := by
  cases step with
  | literal token => exact .inl ⟨by rw [token]; rfl, rfl⟩
  | openGroup token =>
    have bracket : next.token.isBracket = true := by rw [token]; rfl
    rw [bracketed_cons_of_bracket bracket]
    exact .inr ⟨bracket, [], .openGroup token⟩
  | closeGroup token opens inner =>
    rw [bracketed_append, bracketed_cons_of_bracket (by rw [opens]; rfl)]
    exact .inr ⟨by rw [token]; rfl, _, .closeGroup token opens (forall_mem_bracketed inner)⟩
  | operator operator ready _ =>
    have free := isBracket_of_isOperator operator
    have none := bracketed_of_free fun lexeme member => isBracket_of_appliesBefore (ready lexeme member)
    rw [bracketed_cons_of_free free, bracketed_append, none]
    exact .inl ⟨free, rfl⟩

/-- Operands and operators have no part in what is wrong with the brackets. -/
theorem reorder_bracketed_error_iff :
    reorder (bracketed waiting) (bracketed tokens) = .error diagnostic ↔
      reorder waiting tokens = .error diagnostic := by
  induction tokens generalizing waiting with
  | nil => exact release_bracketed_error_iff
  | cons next rest ih =>
    obtain ⟨emitted, left, step⟩ | ⟨token, free⟩ := exists_step waiting next
    · rw [step.reorder_eq, map_eq_error_iff, ← ih]
      obtain ⟨free, same⟩ | ⟨bracket, inner, alone⟩ := step.bracketed
      · rw [bracketed_cons_of_free free, same]
      · rw [bracketed_cons_of_bracket bracket, alone.reorder_eq, map_eq_error_iff]
    -- both runs end here: what waits holds no opening bracket, in neither of them
    · rw [bracketed_cons_of_bracket (by rw [token]; rfl), reorder_unopened token free,
        reorder_unopened token (forall_mem_bracketed free)]

theorem postfixOrder_eq_error_iff :
    postfixOrder pattern = .error diagnostic ↔ reorder [] (lexemes pattern) = .error diagnostic := by
  rw [postfixOrder, ← reorder_bracketed_error_iff, bracketed_marked]
  exact reorder_bracketed_error_iff

/-! ## How many brackets are open -/

/-- With `low` brackets open before the tokens, none of them is closed twice, and `high` are open
behind them. -/
structure Climbs (low : Nat) (tokens : List Token) (high : Nat) : Prop where
  above : ∀ count,
    (tokens.take count).count .closeGroup ≤ low + (tokens.take count).count .openGroup
  total : low + tokens.count .openGroup = tokens.count .closeGroup + high

namespace Climbs

variable {low middle high : Nat} {front back : List Token} {token : Token}

theorem nil (low : Nat) : Climbs low [] low where
  above := fun count => by simp
  total := by simp

theorem append (first : Climbs low front middle) (second : Climbs middle back high) :
    Climbs low (front ++ back) high where
  above := by
    intro count
    rw [List.take_append, List.count_append, List.count_append]
    have before := first.above count
    have behind := second.above (count - front.length)
    have total := first.total
    by_cases inside : count ≤ front.length
    · rw [Nat.sub_eq_zero_of_le inside, List.take_zero]
      simpa using before
    · rw [List.take_of_length_le (Nat.le_of_not_le inside)]
      omega
  total := by
    have before := first.total
    have behind := second.total
    rw [List.count_append, List.count_append]
    omega

theorem single (balance : low + [token].count .openGroup = [token].count .closeGroup + high) :
    Climbs low [token] high where
  above := by
    intro count
    cases count with
    | zero => simp
    | succ count =>
      rw [List.take_of_length_le (by simp)]
      omega
  total := balance

theorem lift (climbs : Climbs 0 front 0) (low : Nat) : Climbs low front low where
  above := fun count => by
    have before := climbs.above count
    omega
  total := by
    have total := climbs.total
    omega

theorem cons (balance : low + [token].count .openGroup = [token].count .closeGroup + middle)
    (climbs : Climbs middle back high) : Climbs low (token :: back) high :=
  (single balance).append climbs

end Climbs

theorem Step.openings_add (step : Step pending next emitted waiting) :
    openings pending + [next.token].count .openGroup =
      [next.token].count .closeGroup + openings waiting := by
  cases step with
  | literal token => simp [token]
  | openGroup token => simp [token, openings_cons_of_eq token]
  | closeGroup token bracket inner =>
    rw [token, openings_append, openings_eq_zero_iff.mpr inner, openings_cons_of_eq bracket]
    simp [Nat.add_comm]
  | operator operator ready _ =>
    have free := isBracket_of_isOperator operator
    have none : openings emitted = 0 := openings_eq_zero_iff.mpr fun lexeme member token => by
      simpa [token, appliesBefore, precedence] using ready lexeme member
    have other : next.token ≠ .openGroup := fun token => by simp [token, isBracket] at free
    have neither : next.token ≠ .closeGroup := fun token => by simp [token, isBracket] at free
    rw [openings_append, none, openings_cons_of_ne other, List.count_singleton, List.count_singleton]
    simp [other, neither]

/-- A bracket that waits after a step was read by it, or waited before over the same tokens. -/
theorem Step.exists_waited {inner outer : List Lexeme}
    (step : Step pending next emitted (inner ++ opening :: outer))
    (bracket : opening.token = .openGroup) :
    inner = [] ∧ opening = next ∨ ∃ earlier, pending = earlier ++ opening :: outer := by
  generalize shape : inner ++ opening :: outer = left at step
  cases step with
  | literal _ => exact .inr ⟨inner, shape.symm⟩
  | openGroup _ =>
    cases inner with
    | nil => exact .inl ⟨rfl, (List.cons.inj shape).1⟩
    | cons top inner => exact .inr ⟨inner, (List.cons.inj shape).2.symm⟩
  | @closeGroup _ _ closed _ _ _ _ => exact .inr ⟨emitted ++ closed :: inner, by simp [shape]⟩
  | operator operator _ _ =>
    cases inner with
    | nil =>
      obtain ⟨rfl, _⟩ := List.cons.inj shape
      simp [bracket, isOperator, precedence] at operator
    | cons top inner => exact .inr ⟨emitted ++ inner, by simp [← (List.cons.inj shape).2]⟩

/-! ## Which bracket is reported -/

/-- How reordering ends, given what waits and the tokens: all brackets are closed in the end, a
closing bracket stands where none is open, or behind some opening bracket all others are closed,
be it among the tokens or among what waits. -/
inductive Outcome (waiting tokens : List Lexeme) : Except Diagnostic (List Lexeme) → Prop where
  | settled {out : List Lexeme} :
      Climbs (openings waiting) (tokens.map (·.token)) 0 → Outcome waiting tokens (.ok out)
  | unopened (front : List Lexeme) {back : List Lexeme} {closing : Lexeme} :
      tokens = front ++ closing :: back → closing.token = .closeGroup →
      Climbs (openings waiting) (front.map (·.token)) 0 →
      Outcome waiting tokens (.error ⟨.unopenedGroup, some closing.position⟩)
  | unclosed (front : List Lexeme) {back : List Lexeme} {opening : Lexeme} {high : Nat} :
      tokens = front ++ opening :: back → opening.token = .openGroup →
      Climbs (openings waiting) (front.map (·.token)) high → Climbs 0 (back.map (·.token)) 0 →
      Outcome waiting tokens (.error ⟨.unclosedGroup, some opening.position⟩)
  | waited {inner outer : List Lexeme} {opening : Lexeme} :
      waiting = inner ++ opening :: outer → opening.token = .openGroup →
      Climbs (openings inner) (tokens.map (·.token)) 0 →
      Outcome waiting tokens (.error ⟨.unclosedGroup, some opening.position⟩)

theorem Outcome.step {result : Except Diagnostic (List Lexeme)}
    (step : Step pending next emitted waiting) (outcome : Outcome waiting rest result) :
    Outcome pending (next :: rest) ((emitted ++ ·) <$> result) := by
  have balance := step.openings_add
  cases outcome with
  | settled climbs => exact .settled (.cons balance climbs)
  | unopened front shape token climbs =>
    subst shape
    exact .unopened (next :: front) rfl token (.cons balance climbs)
  | unclosed front shape token climbs balanced =>
    subst shape
    exact .unclosed (next :: front) rfl token (.cons balance climbs) balanced
  | @waited inner outer opening shape token climbs =>
    subst shape
    obtain ⟨rfl, rfl⟩ | ⟨earlier, rfl⟩ := step.exists_waited token
    -- the bracket that is left waiting in the end is the one just read
    · exact .unclosed [] rfl token (.nil _) climbs
    -- over the bracket the step opens or closes what it does over all that waits
    · have atop : openings earlier + [next.token].count .openGroup =
          [next.token].count .closeGroup + openings inner := by
        simp only [openings_append, openings_cons_of_eq token] at balance
        omega
      exact .waited rfl token (.cons atop climbs)

theorem release_of_openGroup {inner outer : List Lexeme} (bracket : opening.token = .openGroup)
    (free : ∀ lexeme ∈ inner, lexeme.token ≠ .openGroup) :
    release (inner ++ opening :: outer) = .error ⟨.unclosedGroup, some opening.position⟩ := by
  induction inner with
  | nil => exact if_pos bracket
  | cons top inner ih =>
    obtain ⟨other, free⟩ := List.forall_mem_cons.mp free
    rw [List.cons_append, release, if_neg other, ih free]
    rfl

theorem outcome_reorder (waiting tokens : List Lexeme) :
    Outcome waiting tokens (reorder waiting tokens) := by
  induction tokens generalizing waiting with
  | nil =>
    rw [reorder]
    obtain free | ⟨inner, opening, outer, rfl, bracket, free⟩ := exists_opening waiting
    · rw [release_eq_ok_iff.mpr ⟨rfl, free⟩]
      have none := openings_eq_zero_iff.mpr free
      exact .settled (none ▸ .nil _)
    · rw [release_of_openGroup bracket free]
      have none := openings_eq_zero_iff.mpr free
      exact .waited rfl bracket (none ▸ .nil _)
  | cons next rest ih =>
    obtain ⟨emitted, left, step⟩ | ⟨token, free⟩ := exists_step waiting next
    · rw [step.reorder_eq]
      exact (ih left).step step
    · rw [reorder_unopened token free]
      have none := openings_eq_zero_iff.mpr free
      exact .unopened [] rfl token (none ▸ .nil _)

/-! ## The brackets of a text -/

variable {text front back : List Char} {low high : Nat}

theorem climbs_iff :
    Climbs low (text.map ofChar) high ↔
      (∀ count, (text.take count).count ')' ≤ low + (text.take count).count '(') ∧
        low + text.count '(' = text.count ')' + high := by
  have injective : Function.Injective ofChar := fun _ _ => ofChar_inj.mp
  have opened (part : List Char) : (part.map ofChar).count .openGroup = part.count '(' :=
    List.count_map_of_injective part ofChar injective '('
  have closed (part : List Char) : (part.map ofChar).count .closeGroup = part.count ')' :=
    List.count_map_of_injective part ofChar injective ')'
  constructor
  · intro climbs
    have total := climbs.total
    rw [opened, closed] at total
    refine ⟨fun count => ?_, total⟩
    have above := climbs.above count
    rwa [← List.map_take, opened, closed] at above
  · intro ⟨above, total⟩
    refine ⟨fun count => ?_, by rw [opened, closed, total]⟩
    rw [← List.map_take, opened, closed]
    exact above count

theorem overclosedAt_eq_empty (climbs : Climbs 0 (text.map ofChar) high) : overclosedAt text = ∅ := by
  refine Set.eq_empty_of_forall_notMem fun place ⟨_, more⟩ => ?_
  have above := (climbs_iff.mp climbs).1 (place + 1)
  rw [Overclosed] at more
  omega

/-- The first closing bracket that finds no open one is the first place up to which the text is
overclosed. -/
theorem isLeast_overclosedAt (climbs : Climbs 0 (front.map ofChar) 0) :
    IsLeast (overclosedAt (front ++ ')' :: back)) front.length := by
  obtain ⟨above, total⟩ := climbs_iff.mp climbs
  constructor
  · refine ⟨by simp, ?_⟩
    have upTo : (front ++ ')' :: back).take (front.length + 1) = front ++ [')'] :=
      List.take_length_add_append 1
    rw [upTo, Overclosed, List.count_append, List.count_append]
    simp
    omega
  · intro place ⟨_, more⟩
    by_contra less
    have upTo : (front ++ ')' :: back).take (place + 1) = front.take (place + 1) :=
      List.take_append_of_le_length (by omega)
    rw [upTo, Overclosed] at more
    have bound := above (place + 1)
    omega

theorem overopened_drop {place : Nat} (unclosed : place ∈ unclosedAt text) :
    Overopened (text.drop place) := by
  obtain ⟨opens, more⟩ := unclosed
  have within := (List.getElem?_eq_some_iff.mp opens).1
  have surplus := more (text.length - 1) (by omega) (by omega)
  rwa [Nat.sub_add_cancel (by omega), List.extract_eq_take_drop, ← List.length_drop,
    List.take_length] at surplus

theorem not_overopened_drop (climbs : Climbs 0 (text.map ofChar) 0) (count : Nat) :
    ¬Overopened (text.drop count) := by
  intro more
  obtain ⟨above, total⟩ := climbs_iff.mp climbs
  have bound := above count
  have divided (c : Char) : text.count c = (text.take count).count c + (text.drop count).count c := by
    rw [← List.count_append, List.take_append_drop]
  rw [divided '(', divided ')'] at total
  rw [Overopened] at more
  omega

/-- An opening bracket behind which all others are closed is the last one that is never closed. -/
theorem isGreatest_unclosedAt (climbs : Climbs 0 (back.map ofChar) 0) :
    IsGreatest (unclosedAt (front ++ '(' :: back)) front.length := by
  constructor
  -- behind the bracket nothing is closed that was not opened there
  · refine ⟨by simp, fun last from' _ => ?_⟩
    obtain ⟨count, rfl⟩ := Nat.exists_eq_add_of_le from'
    have segment : (front ++ '(' :: back).extract front.length (front.length + count + 1) =
        '(' :: back.take count := by
      rw [List.extract_eq_take_drop, List.drop_left, Nat.add_assoc, Nat.add_sub_cancel_left,
        List.take_succ_cons]
    have bound := (climbs_iff.mp climbs).1 count
    rw [segment, Overopened]
    simp
    omega
  · intro place unclosed
    by_contra less
    obtain ⟨count, rfl⟩ := Nat.exists_eq_add_of_lt (Nat.lt_of_not_le less)
    have more := overopened_drop unclosed
    rw [Nat.add_assoc, List.drop_length_add_append, List.drop_succ_cons] at more
    exact not_overopened_drop climbs count more

theorem climbs_of_unclosed (before : Climbs 0 (front.map ofChar) high)
    (behind : Climbs 0 (back.map ofChar) 0) :
    Climbs 0 ((front ++ '(' :: back).map ofChar) (high + 1) := by
  rw [List.map_append, List.map_cons]
  exact before.append (.cons (Nat.zero_add (high + 1)).symm (behind.lift (high + 1)))

theorem exists_text_of_lexemes {before behind : List Lexeme} {lexeme : Lexeme}
    (shape : lexemes pattern = before ++ lexeme :: behind) :
    ∃ front c back, pattern.toList = front ++ c :: back ∧ lexeme = ⟨front.length, ofChar c⟩ ∧
      front.map ofChar = before.map (·.token) ∧ back.map ofChar = behind.map (·.token) := by
  have tokens := tokens_lexemes pattern
  rw [shape, List.map_append, List.map_cons] at tokens
  obtain ⟨front, rest, text, first, second⟩ := List.map_eq_append_iff.mp tokens.symm
  obtain ⟨c, back, rfl, token, third⟩ := List.map_eq_cons_iff.mp second
  have length : front.length = before.length := by simpa using congrArg List.length first
  have found : (lexemes pattern)[before.length]? = some lexeme := by simp [shape]
  refine ⟨front, c, back, text, ?_, first, third⟩
  rw [token, length, ← position_of_lexemes found]

theorem unclosedAt_eq_empty (climbs : Climbs 0 (text.map ofChar) 0) : unclosedAt text = ∅ :=
  Set.eq_empty_of_forall_notMem fun place unclosed =>
    not_overopened_drop climbs place (overopened_drop unclosed)

theorem postfixText_cases (pattern : String) :
    (∃ place, IsLeast (overclosedAt pattern.toList) place ∧
      postfixText pattern = .error ⟨.unopenedGroup, some place⟩) ∨
    overclosedAt pattern.toList = ∅ ∧
      ((∃ place, Overopened pattern.toList ∧ IsGreatest (unclosedAt pattern.toList) place ∧
          postfixText pattern = .error ⟨.unclosedGroup, some place⟩) ∨
        ¬Overopened pattern.toList ∧ unclosedAt pattern.toList = ∅ ∧
          ∃ text, postfixText pattern = .ok text) := by
  have failing (diagnostic : Diagnostic) (failed : reorder [] (lexemes pattern) = .error diagnostic) :
      postfixText pattern = .error diagnostic :=
    map_eq_error_iff.mpr (postfixOrder_eq_error_iff.mpr failed)
  have outcome := outcome_reorder [] (lexemes pattern)
  generalize result : reorder [] (lexemes pattern) = ended at outcome
  cases outcome with
  | unopened before shape token climbs =>
    obtain ⟨front, c, back, text, rfl, first, _⟩ := exists_text_of_lexemes shape
    obtain rfl : c = ')' := ofChar_inj.mp token
    rw [text]
    exact .inl ⟨front.length, isLeast_overclosedAt (first ▸ climbs), failing _ result⟩
  | @unclosed before behind _ high shape token climbs balanced =>
    obtain ⟨front, c, back, text, rfl, first, second⟩ := exists_text_of_lexemes shape
    obtain rfl : c = '(' := ofChar_inj.mp token
    have whole : Climbs 0 (pattern.toList.map ofChar) (high + 1) :=
      text ▸ climbs_of_unclosed (first ▸ climbs) (second ▸ balanced)
    have total := (climbs_iff.mp whole).2
    refine .inr ⟨overclosedAt_eq_empty whole, .inl ⟨front.length, ?_, ?_, failing _ result⟩⟩
    · rw [Overopened]
      omega
    · rw [text]
      exact isGreatest_unclosedAt (second ▸ balanced)
  | waited shape _ _ => simp at shape
  | settled climbs =>
    rw [tokens_lexemes] at climbs
    refine .inr ⟨overclosedAt_eq_empty climbs,
      .inr ⟨not_overopened_drop climbs 0, unclosedAt_eq_empty climbs, ?_⟩⟩
    cases known : postfixOrder pattern with
    | ok out => exact ⟨_, by rw [postfixText, known]; rfl⟩
    | error diagnostic => cases result.symm.trans (postfixOrder_eq_error_iff.mp known)

theorem postfixText_unopened_iff {place : Nat} :
    postfixText pattern = .error ⟨.unopenedGroup, some place⟩ ↔
      IsLeast (overclosedAt pattern.toList) place := by
  obtain ⟨first, least, failed⟩ | ⟨none, outcome⟩ := postfixText_cases pattern
  · rw [failed]
    constructor
    · intro same
      cases same
      exact least
    · intro other
      rw [least.unique other]
  · refine iff_of_false (fun failed => ?_) fun least => least.nonempty.ne_empty none
    obtain ⟨_, _, _, known⟩ | ⟨_, _, _, known⟩ := outcome <;> cases failed.symm.trans known

theorem postfixText_unclosed_iff {place : Nat} :
    postfixText pattern = .error ⟨.unclosedGroup, some place⟩ ↔
      overclosedAt pattern.toList = ∅ ∧ IsGreatest (unclosedAt pattern.toList) place := by
  obtain ⟨_, least, failed⟩ | ⟨none, outcome⟩ := postfixText_cases pattern
  · rw [failed]
    exact iff_of_false nofun fun left => least.nonempty.ne_empty left.1
  · obtain ⟨last, _, greatest, failed⟩ | ⟨_, closed, _, known⟩ := outcome
    · rw [failed]
      constructor
      · intro same
        cases same
        exact ⟨none, greatest⟩
      · intro ⟨_, other⟩
        rw [greatest.unique other]
    · rw [known]
      exact iff_of_false nofun fun left => left.2.nonempty.ne_empty closed

theorem exists_postfixText_unclosed_iff :
    (∃ place, postfixText pattern = .error ⟨.unclosedGroup, some place⟩) ↔
      overclosedAt pattern.toList = ∅ ∧ Overopened pattern.toList := by
  obtain ⟨_, least, failed⟩ | ⟨none, outcome⟩ := postfixText_cases pattern
  · rw [failed]
    exact iff_of_false (fun ⟨_, same⟩ => nomatch same) fun left => least.nonempty.ne_empty left.1
  · obtain ⟨last, more, _, failed⟩ | ⟨balanced, _, _, known⟩ := outcome
    · exact iff_of_true ⟨last, failed⟩ ⟨none, more⟩
    · rw [known]
      exact iff_of_false (fun ⟨_, same⟩ => nomatch same) fun left => balanced left.2

theorem exists_postfixText_iff :
    (∃ text, postfixText pattern = .ok text) ↔
      overclosedAt pattern.toList = ∅ ∧ ¬Overopened pattern.toList := by
  obtain ⟨_, least, failed⟩ | ⟨none, outcome⟩ := postfixText_cases pattern
  · rw [failed]
    exact iff_of_false (fun ⟨_, same⟩ => nomatch same) fun left => least.nonempty.ne_empty left.1
  · obtain ⟨_, more, _, failed⟩ | ⟨balanced, _, known⟩ := outcome
    · rw [failed]
      exact iff_of_false (fun ⟨_, same⟩ => nomatch same) fun left => left.2 more
    · exact iff_of_true known ⟨none, balanced⟩

theorem build_ne_bracket_fault (failed : build tokens = .error diagnostic) :
    ¬(diagnostic.fault = .unopenedGroup ∨ diagnostic.fault = .unclosedGroup) := by
  have reading := reading_build tokens
  rw [failed] at reading
  cases reading with
  | @refused _ lexeme _ _ => cases lexeme.token <;> simp [refusal]
  | unjoined _ _ _ _ => simp

/-- A bracket that does not match is reported before anything else is looked at. -/
theorem postfixText_eq_error_iff :
    postfixText pattern = .error diagnostic ↔ compile pattern = .error diagnostic ∧
      (diagnostic.fault = .unopenedGroup ∨ diagnostic.fault = .unclosedGroup) := by
  constructor
  · intro failed
    refine ⟨compile_of_postfixText_error failed, ?_⟩
    obtain ⟨_, _, known⟩ | ⟨_, ⟨_, _, _, known⟩ | ⟨_, _, _, known⟩⟩ := postfixText_cases pattern
    · cases failed.symm.trans known
      exact .inl rfl
    · cases failed.symm.trans known
      exact .inr rfl
    · cases failed.symm.trans known
  · intro ⟨failed, bracket⟩
    cases known : postfixOrder pattern with
    | error other =>
      have early : postfixText pattern = .error other := by
        rw [postfixText, known]
        rfl
      cases failed.symm.trans (compile_of_postfixText_error early)
      exact early
    | ok out =>
      rw [compile, known] at failed
      exact absurd bracket (build_ne_bracket_fault failed)

/-- Counting decides what is wrong with the brackets of a pattern. The first place up to which it is
overclosed is reported, and if there is none the last opening bracket that is never closed; that
one exists just if the whole pattern is overopened. All other patterns have a postfix order.
Compiling reports the same, whatever else is wrong. -/
theorem counting_decides_bracket_faults (pattern : String) :
    (∀ place, postfixText pattern = .error ⟨.unopenedGroup, some place⟩ ↔
      IsLeast (overclosedAt pattern.toList) place) ∧
      (∀ place, postfixText pattern = .error ⟨.unclosedGroup, some place⟩ ↔
        overclosedAt pattern.toList = ∅ ∧ IsGreatest (unclosedAt pattern.toList) place) ∧
      ((∃ place, postfixText pattern = .error ⟨.unclosedGroup, some place⟩) ↔
        overclosedAt pattern.toList = ∅ ∧ Overopened pattern.toList) ∧
      ((∃ text, postfixText pattern = .ok text) ↔
        overclosedAt pattern.toList = ∅ ∧ ¬Overopened pattern.toList) ∧
      ∀ diagnostic, postfixText pattern = .error diagnostic ↔
        compile pattern = .error diagnostic ∧
          (diagnostic.fault = .unopenedGroup ∨ diagnostic.fault = .unclosedGroup) :=
  ⟨fun _ => postfixText_unopened_iff, fun _ => postfixText_unclosed_iff,
    exists_postfixText_unclosed_iff, exists_postfixText_iff, fun _ => postfixText_eq_error_iff⟩

end PatternAutomata
