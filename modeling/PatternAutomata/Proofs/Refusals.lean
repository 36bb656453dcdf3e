import Mathlib.Data.Set.Basic
import PatternAutomata.Proofs.Balance
import PatternAutomata.Proofs.LanguageOperations
import PatternAutomata.Proofs.PostfixText
import PatternAutomata.Surplus

/-! Which token is refused, and what is left when all are read.

The number of expressions on hand is known from the tokens read, and whether the
next token is refused depends on this number alone. So counting tells how any
reading ends.
-/

set_option autoImplicit false

namespace PatternAutomata

namespace Token

def gain (tokens : List Token) : Int := (operands tokens : Int) - connectives tokens

/-- A token is refused that does not find its operands among so many expressions. -/
def Refused (height : Int) : Token → Prop
  | .literal _ => False
  | .quantifier _ => height < 1
  | .connective _ => height < 2
  | .openGroup | .closeGroup => True

def refusals (height : Int) (tokens : List Token) : Set Nat :=
  {place | ∃ token, tokens[place]? = some token ∧ token.Refused (height + gain (tokens.take place))}

variable {height : Int} {first : Token} {tokens : List Token} {place : Nat}

theorem gain_cons (first : Token) (tokens : List Token) :
    gain (first :: tokens) = gain [first] + gain tokens := by
  have connected : connectives (first :: tokens) = connectives [first] + connectives tokens :=
    connectives_append [first] tokens
  simp only [gain, operands_cons first tokens, connected]
  omega

theorem refusals_nil : refusals height [] = ∅ := by
  refine Set.eq_empty_of_forall_notMem fun place member => ?_
  obtain ⟨token, here, _⟩ := member
  cases here

theorem zero_mem_refusals : 0 ∈ refusals height (first :: tokens) ↔ first.Refused height := by
  simp [refusals, gain, operands, connectives]

theorem succ_mem_refusals :
    place + 1 ∈ refusals height (first :: tokens) ↔ place ∈ refusals (height + gain [first]) tokens := by
  have reached : height + gain ((first :: tokens).take (place + 1)) =
      height + gain [first] + gain (tokens.take place) := by
    rw [List.take_succ_cons, gain_cons, Int.add_assoc]
  constructor
  · intro ⟨token, here, refused⟩
    exact ⟨token, here, reached ▸ refused⟩
  · intro ⟨token, here, refused⟩
    exact ⟨token, here, reached ▸ refused⟩

theorem refusals_cons_eq_empty (taken : ¬first.Refused height)
    (none : refusals (height + gain [first]) tokens = ∅) : refusals height (first :: tokens) = ∅ := by
  refine Set.eq_empty_of_forall_notMem fun place member => ?_
  cases place with
  | zero => exact taken (zero_mem_refusals.mp member)
  | succ place =>
    have later := succ_mem_refusals.mp member
    rw [none] at later
    exact later

theorem isLeast_refusals_cons (taken : ¬first.Refused height)
    (least : IsLeast (refusals (height + gain [first]) tokens) place) :
    IsLeast (refusals height (first :: tokens)) (place + 1) := by
  refine ⟨succ_mem_refusals.mpr least.1, fun other member => ?_⟩
  cases other with
  | zero => exact absurd (zero_mem_refusals.mp member) taken
  | succ other => exact Nat.succ_le_succ (least.2 (succ_mem_refusals.mp member))

theorem isLeast_refusals_zero (refused : first.Refused height) :
    IsLeast (refusals height (first :: tokens)) 0 :=
  ⟨zero_mem_refusals.mpr refused, fun other _ => Nat.zero_le other⟩

end Token

open Token

namespace Expr

variable {read : List Expr} {next : Lexeme} {tokens : List Lexeme}

theorem push_refused (refused : next.token.Refused read.length) :
    push read next = .error ⟨next.token.refusal, some next.position⟩ := by
  cases token : next.token with
  | literal c =>
    rw [token] at refused
    exact refused.elim
  | quantifier how =>
    rw [token] at refused
    cases read with
    | nil => simp only [push, token, refusal]
    | cons body rest =>
      simp only [Refused, List.length_cons] at refused
      omega
  | connective how =>
    rw [token] at refused
    cases read with
    | nil => simp only [push, token, refusal]
    | cons right rest =>
      cases rest with
      | nil => simp only [push, token, refusal]
      | cons left rest =>
        simp only [Refused, List.length_cons] at refused
        omega
  | openGroup => simp only [push, token, refusal]
  | closeGroup => simp only [push, token, refusal]

theorem exists_push (taken : ¬next.token.Refused read.length) :
    ∃ after, push read next = .ok after ∧ (after.length : Int) = read.length + gain [next.token] := by
  cases token : next.token with
  | literal c => exact ⟨_, push_literal token, rfl⟩
  | quantifier how =>
    rw [token] at taken
    cases read with
    | nil => simp [Refused] at taken
    | cons body rest => exact ⟨_, push_quantifier token, rfl⟩
  | connective how =>
    rw [token] at taken
    cases read with
    | nil => simp [Refused] at taken
    | cons right rest =>
      cases rest with
      | nil => simp [Refused] at taken
      | cons left rest =>
        have spent : gain [connective how] = -1 := rfl
        refine ⟨_, push_connective token, ?_⟩
        simp only [spent, List.length_cons]
        omega
  | openGroup => exact absurd (token ▸ trivial) taken
  | closeGroup => exact absurd (token ▸ trivial) taken

/-- Reading ends at the first token that is refused, or with as many expressions on hand as the
tokens account for. -/
theorem foldlM_push_cases (read : List Expr) (tokens : List Lexeme) :
    (∃ place lexeme, tokens[place]? = some lexeme ∧
      IsLeast (refusals read.length (tokens.map (·.token))) place ∧
      tokens.foldlM push read = .error ⟨lexeme.token.refusal, some lexeme.position⟩) ∨
    ∃ after, tokens.foldlM push read = .ok after ∧
      refusals read.length (tokens.map (·.token)) = ∅ ∧
      (after.length : Int) = read.length + gain (tokens.map (·.token)) := by
  -- the first token leaves another height for the rest, so `read` stays open
  induction tokens generalizing read with
  | nil =>
    refine .inr ⟨read, rfl, refusals_nil, ?_⟩
    simp [gain, operands, connectives]
  | cons next rest ih =>
    rw [List.map_cons, List.foldlM_cons]
    by_cases refused : next.token.Refused read.length
    · rw [push_refused refused]
      exact .inl ⟨0, next, rfl, isLeast_refusals_zero refused, rfl⟩
    · obtain ⟨after, pushed, height⟩ := exists_push refused
      rw [pushed]
      obtain ⟨place, lexeme, here, least, failed⟩ | ⟨last, known, none, final⟩ := ih after
      · rw [height] at least
        exact .inl ⟨place + 1, lexeme, here, isLeast_refusals_cons refused least, failed⟩
      · rw [height] at none final
        refine .inr ⟨last, known, refusals_cons_eq_empty refused none, ?_⟩
        rw [final, gain_cons next.token (rest.map (·.token)), Int.add_assoc]

end Expr

/-- How building from tokens ends: at the first token that is refused, with nothing where there are
no tokens, with a single expression, or with several that nothing joins. -/
inductive Reading (tokens : List Lexeme) : Except Diagnostic Nfa → Prop where
  | refused {place : Nat} {lexeme : Lexeme} :
      tokens[place]? = some lexeme → IsLeast (refusals 0 (tokens.map (·.token))) place →
      Reading tokens (.error ⟨lexeme.token.refusal, some lexeme.position⟩)
  | empty : tokens = [] → Reading tokens (.ok .empty)
  | whole (automaton : Nfa) : refusals 0 (tokens.map (·.token)) = ∅ →
      gain (tokens.map (·.token)) = 1 → Reading tokens (.ok automaton)
  | unjoined (count : Nat) : refusals 0 (tokens.map (·.token)) = ∅ → 2 ≤ count →
      gain (tokens.map (·.token)) = count → Reading tokens (.error { fault := .unjoinedOperands count })

theorem reading_build (tokens : List Lexeme) : Reading tokens (build tokens) := by
  rw [build, Expr.ofPostfix]
  obtain ⟨place, lexeme, here, least, failed⟩ | ⟨after, known, none, height⟩ :=
    Expr.foldlM_push_cases [] tokens
  · rw [failed]
    exact .refused here least
  · rw [known]
    rw [List.length_nil, Int.natCast_zero, Int.zero_add] at height
    cases after with
    | nil => exact .empty (List.map_eq_nil_iff.mp (Expr.listing_foldlM_push known).symm)
    | cons last rest =>
      cases rest with
      | nil => exact .whole _ none height.symm
      | cons other rest => exact .unjoined _ none (Nat.le_add_left ..) height.symm

/-! ## Texts with operators behind their operands -/

variable {text : String} {height : Int}

theorem refused_ofChar (c : Char) :
    (ofChar c).Refused height ↔
      c ∈ ['(', ')'] ∨ c ∈ [concatMarker, '|'] ∧ height < 2 ∨ c ∈ ['*', '+', '?'] ∧ height < 1 := by
  unfold ofChar
  repeat' split
  all_goals simp_all [Refused, concatMarker]

theorem isOperand_ofChar (c : Char) : (ofChar c).isOperand = decide (c ∉ reserved) := by
  unfold ofChar
  repeat' split
  all_goals simp_all [isOperand, reserved, concatMarker]

theorem isConnective_ofChar (c : Char) : (ofChar c).isConnective = decide (c ∈ [concatMarker, '|']) := by
  unfold ofChar
  repeat' split
  all_goals simp_all [isConnective, concatMarker]

theorem operands_map_ofChar (text : List Char) :
    operands (text.map ofChar) = text.countP (· ∉ reserved) := by
  rw [operands, List.countP_map]
  simp only [Function.comp_def, isOperand_ofChar]

theorem gain_map_ofChar (text : List Char) : gain (text.map ofChar) = surplus text := by
  rw [gain, operands_map_ofChar, connectives, List.countP_map, surplus]
  simp only [Function.comp_def, isConnective_ofChar]

theorem refusals_map_ofChar (text : List Char) : refusals 0 (text.map ofChar) = refusedAt text := by
  ext place
  simp only [refusals, refusedAt, ← List.map_take, gain_map_ofChar, Int.zero_add, List.getElem?_map]
  constructor
  · intro ⟨token, here, refused⟩
    obtain ⟨c, found, rfl⟩ := Option.map_eq_some_iff.mp here
    exact ⟨c, found, (refused_ofChar c).mp refused⟩
  · intro ⟨c, found, refused⟩
    exact ⟨ofChar c, by rw [found]; rfl, (refused_ofChar c).mpr refused⟩

theorem refusal_ofChar (c : Char) :
    (ofChar c).refusal = if c ∈ ['(', ')'] then .bracketInPostfix else .missingOperand (ofChar c) := by
  unfold ofChar
  repeat' split
  all_goals simp_all [refusal, concatMarker]

theorem refusedAt_nil : refusedAt [] = ∅ :=
  refusals_map_ofChar [] ▸ refusals_nil

theorem compilePostfix_cases (text : String) :
    (∃ place c, IsLeast (refusedAt text.toList) place ∧ text.toList[place]? = some c ∧
      compilePostfix text = .error ⟨(ofChar c).refusal, some place⟩) ∨
    refusedAt text.toList = ∅ ∧
      (surplus text.toList = 0 ∧ text = "" ∧ compilePostfix text = .ok .empty ∨
        surplus text.toList = 1 ∧ (∃ automaton, compilePostfix text = .ok automaton) ∨
        ∃ count : Nat, 2 ≤ count ∧ surplus text.toList = count ∧
          compilePostfix text = .error { fault := .unjoinedOperands count }) := by
  have reading := reading_build (lexemes text)
  rw [compilePostfix]
  generalize build (lexemes text) = result at reading
  cases reading with
  | @refused place lexeme here least =>
    rw [getElem?_lexemes, Option.map_eq_some_iff] at here
    obtain ⟨c, found, rfl⟩ := here
    rw [tokens_lexemes, refusals_map_ofChar] at least
    exact .inl ⟨place, c, least, found, rfl⟩
  -- only the empty text has no tokens
  | empty none =>
    have blank : text = "" := by
      rw [← String.length_eq_zero_iff, ← length_lexemes, none, List.length_nil]
    subst blank
    exact .inr ⟨refusedAt_nil, .inl ⟨rfl, rfl, rfl⟩⟩
  | whole automaton none total =>
    rw [tokens_lexemes, refusals_map_ofChar] at none
    rw [tokens_lexemes, gain_map_ofChar] at total
    exact .inr ⟨none, .inr (.inl ⟨total, automaton, rfl⟩)⟩
  | unjoined count none many total =>
    rw [tokens_lexemes, refusals_map_ofChar] at none
    rw [tokens_lexemes, gain_map_ofChar] at total
    exact .inr ⟨none, .inr (.inr ⟨count, many, total, rfl⟩)⟩

theorem compilePostfix_eq_error_some_iff {fault : Fault} {place : Nat} :
    compilePostfix text = .error ⟨fault, some place⟩ ↔
      IsLeast (refusedAt text.toList) place ∧ ∃ c, text.toList[place]? = some c ∧
        fault = if c ∈ ['(', ')'] then .bracketInPostfix else .missingOperand (.ofChar c) := by
  obtain ⟨first, c, least, here, failed⟩ | ⟨none, outcome⟩ := compilePostfix_cases text
  · rw [failed]
    constructor
    · intro same
      cases same
      exact ⟨least, c, here, refusal_ofChar c⟩
    · intro ⟨other, d, there, named⟩
      cases least.unique other
      cases here.symm.trans there
      rw [named, refusal_ofChar]
  · refine iff_of_false (fun failed => ?_) fun left => left.1.nonempty.ne_empty none
    obtain ⟨_, _, known⟩ | ⟨_, _, known⟩ | ⟨_, _, _, known⟩ := outcome <;>
      cases failed.symm.trans known

theorem compilePostfix_eq_error_none_iff {fault : Fault} :
    compilePostfix text = .error { fault } ↔
      refusedAt text.toList = ∅ ∧ ∃ count : Nat, 2 ≤ count ∧ surplus text.toList = count ∧
        fault = .unjoinedOperands count := by
  obtain ⟨place, c, least, _, failed⟩ | ⟨none, outcome⟩ := compilePostfix_cases text
  · rw [failed]
    exact iff_of_false nofun fun left => least.nonempty.ne_empty left.1
  · obtain ⟨total, _, known⟩ | ⟨total, automaton, known⟩ | ⟨count, many, total, failed⟩ := outcome
    · rw [known]
      refine iff_of_false nofun fun ⟨_, count, many, same, _⟩ => ?_
      omega
    · rw [known]
      refine iff_of_false nofun fun ⟨_, count, many, same, _⟩ => ?_
      omega
    · rw [failed]
      constructor
      · intro same
        cases same
        exact ⟨none, count, many, total, rfl⟩
      · intro ⟨_, other, _, same, named⟩
        obtain rfl : count = other := by omega
        rw [named]

theorem exists_compilePostfix_iff :
    (∃ automaton, compilePostfix text = .ok automaton) ↔
      refusedAt text.toList = ∅ ∧ (surplus text.toList = 0 ∨ surplus text.toList = 1) := by
  obtain ⟨place, c, least, _, failed⟩ | ⟨none, outcome⟩ := compilePostfix_cases text
  · rw [failed]
    exact iff_of_false nofun fun left => least.nonempty.ne_empty left.1
  · obtain ⟨total, _, known⟩ | ⟨total, known⟩ | ⟨count, many, total, failed⟩ := outcome
    · exact iff_of_true ⟨_, known⟩ ⟨none, .inl total⟩
    · exact iff_of_true known ⟨none, .inr total⟩
    · rw [failed]
      refine iff_of_false nofun fun ⟨_, few⟩ => ?_
      omega

theorem surplus_eq_zero_iff :
    refusedAt text.toList = ∅ ∧ surplus text.toList = 0 ↔ text = "" := by
  constructor
  · intro ⟨taken, zero⟩
    obtain ⟨_, _, least, _, _⟩ | ⟨_, ⟨_, blank, _⟩ | ⟨one, _⟩ | ⟨_, many, total, _⟩⟩ :=
      compilePostfix_cases text
    · exact absurd taken least.nonempty.ne_empty
    · exact blank
    · omega
    · omega
  · rintro rfl
    exact ⟨refusedAt_nil, rfl⟩

/-- Counting decides every text with operators behind their operands. It fails at the first place
that is refused, with the fault of the character there. If none is refused it fails where several
operands are left, with their number and no place. Otherwise it compiles, and nothing is left over
only of the empty text, whose automaton has one state and accepts the empty text alone. -/
theorem surplus_decides_postfix_text (text : String) :
    (∀ fault place, compilePostfix text = .error ⟨fault, some place⟩ ↔
      IsLeast (refusedAt text.toList) place ∧ ∃ c, text.toList[place]? = some c ∧
        fault = if c ∈ ['(', ')'] then .bracketInPostfix else .missingOperand (.ofChar c)) ∧
      (∀ fault, compilePostfix text = .error { fault } ↔
        refusedAt text.toList = ∅ ∧ ∃ count : Nat, 2 ≤ count ∧ surplus text.toList = count ∧
          fault = .unjoinedOperands count) ∧
      ((∃ automaton, compilePostfix text = .ok automaton) ↔
        refusedAt text.toList = ∅ ∧ (surplus text.toList = 0 ∨ surplus text.toList = 1)) ∧
      (refusedAt text.toList = ∅ ∧ surplus text.toList = 0 ↔ text = "") ∧
      compilePostfix "" = .ok .empty ∧ Nfa.empty.size = 1 ∧ Nfa.empty.language = 1 :=
  ⟨fun _ _ => compilePostfix_eq_error_some_iff, fun _ => compilePostfix_eq_error_none_iff,
    exists_compilePostfix_iff, surplus_eq_zero_iff, rfl, rfl, Nfa.language_empty⟩

end PatternAutomata
