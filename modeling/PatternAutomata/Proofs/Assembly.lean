import PatternAutomata.Proofs.CheckedArena
import PatternAutomata.Proofs.Determinization
import PatternAutomata.Proofs.PathSemantics

/-! Every automaton that building steps give, one after another, has the shape of an arena.

Reading tokens may keep automata on the stack instead of expressions, and ends
the same. Whatever is on that stack was built by the steps alone, and so was
every automaton that compiling returns.
-/

set_option autoImplicit false

namespace PatternAutomata

namespace Nfa

def push (stack : List Nfa) (next : Lexeme) : Except Diagnostic (List Nfa) :=
  match next.token, stack with
  | .literal c, stack => .ok (.literal c :: stack)
  | .connective how, right :: left :: rest => .ok (.joined how left right :: rest)
  | .quantifier how, body :: rest => .ok (.repeated how body :: rest)
  | .connective _, _ | .quantifier _, _ => .error ⟨.missingOperand next.token, some next.position⟩
  | .openGroup, _ | .closeGroup, _ => .error ⟨.bracketInPostfix, some next.position⟩

def finish : List Nfa → Except Diagnostic Nfa
  | [] => .ok .empty
  | [whole] => .ok whole
  | stack => .error { fault := .unjoinedOperands stack.length }

variable {read : List Expr} {next : Lexeme} {tokens : List Lexeme} {stack later : List Nfa}

theorem push_map :
    push (read.map Expr.toNfa) next = (·.map Expr.toNfa) <$> Expr.push read next := by
  unfold push Expr.push
  cases next.token with
  | literal c => rfl
  | openGroup => rfl
  | closeGroup => rfl
  | quantifier how => cases read <;> rfl
  | connective how =>
    match read with
    | [] => rfl
    | [_] => rfl
    | _ :: _ :: _ => rfl

theorem finish_map :
    finish (read.map Expr.toNfa) =
      (fun whole => (whole.map Expr.toNfa).getD .empty) <$> Expr.finish read := by
  match read with
  | [] => rfl
  | [_] => rfl
  | _ :: _ :: rest => simp [finish, Expr.finish]

theorem build_eq_foldlM_push : build tokens = tokens.foldlM push [] >>= finish := by
  have stacked : tokens.foldlM push [] = (·.map Expr.toNfa) <$> tokens.foldlM Expr.push [] := by
    have run := foldlM_map (g := id) (fun _ _ => push_map) [] tokens
    rwa [List.map_id] at run
  rw [stacked, build, Expr.ofPostfix]
  cases tokens.foldlM Expr.push [] with
  | error diagnostic => rfl
  | ok read => exact finish_map.symm

/-- An automaton that building steps give, applied any number of times. -/
inductive Assembled : Nfa → Prop where
  | empty : Assembled .empty
  | literal (c : Char) : Assembled (.literal c)
  | joined {left right : Nfa} (how : Connective) :
      Assembled left → Assembled right → Assembled (.joined how left right)
  | repeated {body : Nfa} (how : Quantifier) :
      Assembled body → Assembled (.repeated how body)

theorem Assembled.wellFormed {automaton : Nfa} (assembled : Assembled automaton) :
    automaton.WellFormed := by
  induction assembled with
  | empty => exact wellFormed_empty
  | literal c => exact wellFormed_literal
  | joined how _ _ left right => exact left.joined right how
  | repeated how _ body => exact body.repeated how

theorem assembled_toNfa (e : Expr) : Assembled e.toNfa := by
  induction e with
  | literal c => exact .literal c
  | joined how _ _ left right => exact .joined how left right
  | repeated how _ body => exact .repeated how body

theorem Assembled.of_compiled {automaton : Nfa} (compiled : Compiled automaton) :
    Assembled automaton := by
  have ofBuild {tokens : List Lexeme} (built : build tokens = .ok automaton) :
      Assembled automaton := by
    rcases build_eq_ok_iff.mp built with ⟨_, rfl⟩ | ⟨e, _, rfl⟩
    · exact .empty
    · exact assembled_toNfa e
  rcases compiled with ⟨pattern, known⟩ | ⟨text, built⟩
  · obtain ⟨tokens, _, built⟩ := compile_eq_ok_iff.mp known
    exact ofBuild built
  · exact ofBuild built

theorem assembled_push (before : ∀ automaton ∈ stack, Assembled automaton)
    (known : push stack next = .ok later) : ∀ automaton ∈ later, Assembled automaton := by
  unfold push at known
  split at known
  · cases known
    exact List.forall_mem_cons.mpr ⟨.literal _, before⟩
  · cases known
    obtain ⟨right, others⟩ := List.forall_mem_cons.mp before
    obtain ⟨left, rest⟩ := List.forall_mem_cons.mp others
    exact List.forall_mem_cons.mpr ⟨.joined _ left right, rest⟩
  · cases known
    obtain ⟨body, rest⟩ := List.forall_mem_cons.mp before
    exact List.forall_mem_cons.mpr ⟨.repeated _ body, rest⟩
  all_goals cases known

theorem assembled_foldlM_push (before : ∀ automaton ∈ stack, Assembled automaton)
    (known : tokens.foldlM push stack = .ok later) : ∀ automaton ∈ later, Assembled automaton := by
  induction tokens generalizing stack with
  | nil =>
    cases known
    exact before
  | cons next rest ih =>
    rw [List.foldlM_cons, bind_eq_ok_iff] at known
    obtain ⟨middle, pushed, remaining⟩ := known
    exact ih (assembled_push before pushed) remaining

/-- Every automaton that building steps give has its states numbered by their places, all its edges
inside and just its accept state flagged. So no access of a later step, nor of a search along its
silent edges, is to a state that does not exist, and a set accepts just if it has the accept state.
All automata on the stack after any tokens, and all that compiling returns, are of this kind. -/
theorem building_keeps_arena :
    (∀ automaton, Assembled automaton →
      automaton.WellFormed ∧
        (∀ ids, automaton.closure? ids = some (automaton.closure ids)) ∧
        ∀ set, automaton.anyAccepting set = true ↔ automaton.accept ∈ set) ∧
      (empty? = some .empty ∧ (∀ c, literal? c = some (.literal c)) ∧
        (∀ how left right, Assembled left → Assembled right →
          joined? how left right = some (.joined how left right)) ∧
        ∀ how body, Assembled body → repeated? how body = some (.repeated how body)) ∧
      (∀ tokens : List Lexeme, build tokens = tokens.foldlM push [] >>= finish) ∧
      (∀ (tokens : List Lexeme) (stack : List Nfa), tokens.foldlM push [] = .ok stack →
        ∀ automaton ∈ stack, Assembled automaton) ∧
      ∀ automaton, Compiled automaton → Assembled automaton := by
  refine ⟨fun automaton assembled => ?_, ⟨empty?_eq_some, literal?_eq_some, ?_, ?_⟩,
    fun tokens => build_eq_foldlM_push, ?_, fun automaton => Assembled.of_compiled⟩
  · have formed := assembled.wellFormed
    exact ⟨formed, formed.closure?_eq_some, fun set => formed.anyAccepting_iff⟩
  · intro how left right first second
    exact first.wellFormed.joined?_eq_some second.wellFormed how
  · intro how body assembled
    exact assembled.wellFormed.repeated?_eq_some how
  · intro tokens stack
    exact assembled_foldlM_push (List.forall_mem_nil _)

theorem building_keeps_arena_loop :
    (literal 'a').star.WellFormed ∧
      (literal 'a').star.closure? [7, 1, 1] = some ((literal 'a').star.closure [7, 1, 1]) ∧
      union? (literal 'a').star (literal 'b') = some ((literal 'a').star.union (literal 'b')) := by
  have loop : Assembled (literal 'a').star := .repeated .star (.literal 'a')
  obtain ⟨arena, ⟨_, _, joined, _⟩, _⟩ := building_keeps_arena
  exact ⟨(arena _ loop).1, (arena _ loop).2.1 [7, 1, 1], joined .union _ _ loop (.literal 'b')⟩

end Nfa

end PatternAutomata
