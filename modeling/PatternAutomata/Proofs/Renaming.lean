import Mathlib.Logic.Equiv.Basic
import PatternAutomata.Nfa.Simulation
import PatternAutomata.Proofs.Arena
import PatternAutomata.Proofs.Positions

/-! Literals renamed.

No stage asks which character a literal is. So renaming the literals of a pattern
renames the labels of its automaton and changes nothing else. A search along
silent edges does not notice that at all, and a run does not as long as different
characters keep different names.
-/

set_option autoImplicit false

namespace PatternAutomata

open Token

variable {f : Char → Char} {pattern : String}

structure KeepsReserved (f : Char → Char) : Prop where
  fixed : ∀ c ∈ reserved, f c = c
  free : ∀ c, c ∉ reserved → f c ∉ reserved

/-- A character that took the name of a reserved one would have to be that one. -/
theorem KeepsReserved.of_injective (apart : Function.Injective f) (fixed : ∀ c ∈ reserved, f c = c) :
    KeepsReserved f where
  fixed := fixed
  free c free member := free (apart (fixed (f c) member) ▸ member)

/-! ## Patterns -/

def Token.rename (f : Char → Char) : Token → Token
  | .literal c => .literal (f c)
  | token => token

def Lexeme.rename (f : Char → Char) (lexeme : Lexeme) : Lexeme :=
  { lexeme with token := lexeme.token.rename f }

theorem redraws_rename (f : Char → Char) : Redraws (·.rename f) id where
  alike lexeme := by
    rcases lexeme with ⟨_, c | _⟩
    · exact .literals c (f c)
    all_goals exact .same _
  placed _ := rfl

theorem KeepsReserved.ofChar_apply (keeps : KeepsReserved f) (c : Char) :
    ofChar (f c) = (ofChar c).rename f := by
  by_cases known : c ∈ reserved
  · rw [keeps.fixed c known]
    cases token : ofChar c with
    | literal d => exact absurd known (ofChar_eq_literal_iff.mp token).2
    | _ => rfl
  · rw [ofChar_of_not_reserved known, ofChar_of_not_reserved (keeps.free c known)]
    rfl

theorem KeepsReserved.lexemes_map (keeps : KeepsReserved f) :
    lexemes (pattern.map f) = (lexemes pattern).map (·.rename f) := by
  simp only [lexemes, String.toList_map, List.zipIdx_map, List.map_map]
  refine List.map_congr_left fun placed _ => ?_
  exact congrArg (Lexeme.mk placed.2) (keeps.ofChar_apply placed.1)

theorem KeepsReserved.postfixOrder_map (keeps : KeepsReserved f) :
    postfixOrder (pattern.map f) = (·.map (·.rename f)) <$> postfixOrder pattern := by
  have order := @(redraws_rename f).reorder_eq [] (marked (lexemes pattern))
  rw [postfixOrder, keeps.lexemes_map, (redraws_rename f).marked_map]
  refine order.trans ?_
  rw [postfixOrder]
  cases reorder [] (marked (lexemes pattern)) with
  | error diagnostic => simp [redrawnOrder, Except.map, Except.mapError, Diagnostic.moved]
  | ok out => rfl

/-! ## Expressions -/

namespace Expr

def rename (f : Char → Char) : Expr → Expr
  | .literal c => .literal (f c)
  | .joined how left right => .joined how (left.rename f) (right.rename f)
  | .repeated how body => .repeated how (body.rename f)

variable {read : List Expr} {next : Lexeme} {tokens : List Lexeme}

theorem push_rename :
    push (read.map (·.rename f)) (next.rename f) = (·.map (·.rename f)) <$> push read next := by
  rcases next with ⟨position, c | how | how | _ | _⟩
  case literal => rfl
  case quantifier => cases read <;> rfl
  case connective =>
    match read with
    | [] => rfl
    | [_] => rfl
    | _ :: _ :: _ => rfl
  case openGroup => rfl
  case closeGroup => rfl

theorem finish_rename :
    finish (read.map (·.rename f)) = (·.map (·.rename f)) <$> finish read := by
  match read with
  | [] => rfl
  | [_] => rfl
  | _ :: _ :: rest => simp [finish]

theorem ofPostfix_rename :
    ofPostfix (tokens.map (·.rename f)) = (·.map (·.rename f)) <$> ofPostfix tokens := by
  have read : (tokens.map (·.rename f)).foldlM push [] =
      (·.map (·.rename f)) <$> tokens.foldlM push [] :=
    foldlM_map (fun _ _ => push_rename) [] tokens
  rw [ofPostfix, read, ofPostfix]
  cases tokens.foldlM push [] with
  | error diagnostic => rfl
  | ok read => exact finish_rename

end Expr

/-! ## Automata -/

namespace Nfa

def Edge.relabel (f : Char → Char) (edge : Edge) : Edge := { edge with label := edge.label.map f }

def State.relabel (f : Char → Char) (state : State) : State :=
  { state with edges := state.edges.map (·.relabel f) }

def relabel (f : Char → Char) (automaton : Nfa) : Nfa :=
  { automaton with states := automaton.states.map (·.relabel f) }

variable {automaton left right body : Nfa} {id source target : Nat} {label : Option Char}
  {accepting : Bool} {pairs : List (Nat × Nat)} {current : StateSet} {c : Char}

@[simp] theorem size_relabel : (automaton.relabel f).size = automaton.size := by
  simp [size, relabel]

@[simp] theorem start_relabel : (automaton.relabel f).start = automaton.start := rfl

@[simp] theorem accept_relabel : (automaton.relabel f).accept = automaton.accept := rfl

theorem state?_relabel : (automaton.relabel f).state? id = (automaton.state? id).map (·.relabel f) :=
  Array.getElem?_map

theorem relabel_link :
    (automaton.link source label target).relabel f =
      (automaton.relabel f).link source (label.map f) target := by
  refine eq_of_state? rfl rfl fun id => ?_
  simp only [state?_relabel, state?_link]
  split
  · simp [State.relabel, Edge.relabel, Function.comp_def]
  · rfl

theorem relabel_linkAll :
    (automaton.linkAll pairs).relabel f = (automaton.relabel f).linkAll pairs := by
  unfold linkAll
  induction pairs generalizing automaton with
  | nil => rfl
  | cons pair rest ih =>
    rw [List.foldl_cons, List.foldl_cons, ih, relabel_link]
    rfl

theorem relabel_flag :
    (automaton.flag target accepting).relabel f = (automaton.relabel f).flag target accepting := by
  refine eq_of_state? rfl rfl fun id => ?_
  simp only [state?_relabel, state?_flag]
  split
  · simp [State.relabel, Function.comp_def]
  · rfl

theorem relabel_moveAccept :
    (automaton.moveAccept id).relabel f = (automaton.relabel f).moveAccept id := by
  have flags : ((automaton.flag automaton.accept false).flag id true).relabel f =
      ((automaton.relabel f).flag automaton.accept false).flag id true := by
    rw [relabel_flag, relabel_flag]
  exact congrArg (fun flagged : Nfa => { flagged with accept := id }) flags

theorem relabel_adopt : (left.adopt right).relabel f = (left.relabel f).adopt (right.relabel f) := by
  simp [relabel, adopt, size, State.relabel, State.shift, Edge.relabel, Function.comp_def]

theorem relabel_enclose : body.enclose.relabel f = (body.relabel f).enclose := by
  have wide : body.widen.relabel f = (body.relabel f).widen := by
    simp [relabel, widen, size, State.relabel]
  change (body.widen.moveAccept (body.size + 1)).relabel f =
    (body.relabel f).widen.moveAccept ((body.relabel f).size + 1)
  rw [relabel_moveAccept, wide, size_relabel]

theorem relabel_empty : empty.relabel f = empty := by
  simp [relabel, empty, State.relabel]

theorem relabel_literal : (literal c).relabel f = literal (f c) := by
  simp [relabel, literal, State.relabel, Edge.relabel]

theorem relabel_joined (how : Connective) :
    (joined how left right).relabel f = joined how (left.relabel f) (right.relabel f) := by
  cases how with
  | concat =>
    simp only [joined, concat, relabel_moveAccept, relabel_link, relabel_adopt, size_relabel,
      start_relabel, accept_relabel, Option.map_none]
  | union =>
    simp only [joined, union, relabel_linkAll, ← relabel_adopt, ← relabel_enclose, size_relabel,
      start_relabel, accept_relabel]

theorem relabel_repeated (how : Quantifier) :
    (repeated how body).relabel f = repeated how (body.relabel f) := by
  cases how
  all_goals
    simp only [repeated, star, plus, optional, relabel_linkAll, ← relabel_enclose, start_relabel,
      accept_relabel]

end Nfa

theorem Expr.toNfa_rename (e : Expr) : (e.rename f).toNfa = e.toNfa.relabel f := by
  induction e with
  | literal c => exact Nfa.relabel_literal.symm
  | joined how left right leftIH rightIH =>
    rw [rename, toNfa, leftIH, rightIH, toNfa, Nfa.relabel_joined]
  | repeated how body ih => rw [rename, toNfa, ih, toNfa, Nfa.relabel_repeated]

theorem build_rename {tokens : List Lexeme} :
    build (tokens.map (·.rename f)) = (·.relabel f) <$> build tokens := by
  rw [build, Expr.ofPostfix_rename, build]
  cases Expr.ofPostfix tokens with
  | error diagnostic => rfl
  | ok whole =>
    cases whole with
    | none => exact congrArg Except.ok Nfa.relabel_empty.symm
    | some e => exact congrArg Except.ok e.toNfa_rename

theorem KeepsReserved.compile_map (keeps : KeepsReserved f) :
    compile (pattern.map f) = (·.relabel f) <$> compile pattern := by
  rw [compile, keeps.postfixOrder_map, compile]
  cases postfixOrder pattern with
  | error diagnostic => rfl
  | ok tokens => exact build_rename

/-! ## Runs -/

namespace Nfa

variable {automaton : Nfa} {ids : List Nat} {id : Nat} {label : Option Char} {current : StateSet}
  {c : Char} {text : List Char}

/-- Edges are still told apart by a label that only it is renamed to. -/
theorem targets_relabel (apart : ∀ other : Option Char, other.map f = label.map f ↔ other = label) :
    (automaton.relabel f).targets id (label.map f) = automaton.targets id label := by
  have each (state : State) : (state.relabel f).targets (label.map f) = state.targets label := by
    simp only [State.targets, State.relabel, List.filter_map, List.map_map, Function.comp_def,
      Edge.relabel, apart]
  simp only [targets, state?_relabel, Option.map_map, Function.comp_def, each]

theorem closure_relabel : (automaton.relabel f).closure ids = automaton.closure ids := by
  have silent : ((automaton.relabel f).targets · none) = (automaton.targets · none) :=
    funext fun id => @targets_relabel f automaton id none fun other => Option.map_eq_none_iff
  rw [closure, closure, silent, size_relabel]

theorem step_relabel (apart : Function.Injective f) :
    (automaton.relabel f).step current (f c) = automaton.step current c := by
  have drawn : ((automaton.relabel f).targets · (some (f c))) = (automaton.targets · (some c)) :=
    funext fun id =>
      @targets_relabel f automaton id (some c) fun other => (Option.map_injective apart).eq_iff
  rw [step, step, drawn, closure_relabel]

theorem run?_relabel (apart : Function.Injective f) :
    (automaton.relabel f).run? current (text.map f) = automaton.run? current text := by
  induction text generalizing current with
  | nil => rfl
  | cons c rest ih => simp only [List.map_cons, run?, step_relabel apart, ih]

theorem anyAccepting_relabel :
    (automaton.relabel f).anyAccepting current = automaton.anyAccepting current := by
  simp only [anyAccepting, state?_relabel, Option.any_map, State.relabel]

theorem accepts_relabel (apart : Function.Injective f) (input : String) :
    (automaton.relabel f).accepts (input.map f) = automaton.accepts input := by
  have accepting : (automaton.relabel f).anyAccepting = automaton.anyAccepting :=
    funext fun set => anyAccepting_relabel
  have initial : (automaton.relabel f).initial = automaton.initial := closure_relabel
  rw [accepts, initial, String.toList_map, run?_relabel apart, accepting, accepts]

end Nfa

/-- A pattern with its literals renamed fails as the pattern does, or compiles to the same automaton
with its labels renamed. Where different characters keep different names, that automaton accepts the
renamed texts of those that the automaton of the pattern accepts. -/
theorem literals_are_opaque (f : Char → Char) (keeps : KeepsReserved f) (pattern : String) :
    compile (pattern.map f) = Nfa.relabel f <$> compile pattern ∧
      (Function.Injective f → ∀ first second, compile pattern = .ok first →
        compile (pattern.map f) = .ok second →
          ∀ text : String, second.accepts (text.map f) = first.accepts text) := by
  refine ⟨keeps.compile_map, fun apart first second known renamed text => ?_⟩
  rw [keeps.compile_map, known] at renamed
  cases renamed
  exact Nfa.accepts_relabel apart text

theorem literals_are_opaque_swap :
    KeepsReserved (Equiv.swap 'a' 'b') ∧
      compile "ba" = Nfa.relabel (Equiv.swap 'a' 'b') <$> compile "ab" ∧
      ((Nfa.literal 'b').concat (.literal 'a')).accepts "ba" =
        ((Nfa.literal 'a').concat (.literal 'b')).accepts "ab" := by
  have apart : Function.Injective (Equiv.swap 'a' 'b') := (Equiv.swap 'a' 'b').injective
  have keeps : KeepsReserved (Equiv.swap 'a' 'b') := by
    refine .of_injective apart fun c member => Equiv.swap_apply_of_ne_of_ne ?_ ?_
    all_goals
      rintro rfl
      exact absurd member (by decide)
  have swapped : "ab".map (Equiv.swap 'a' 'b') = "ba" := by decide +kernel
  have first : compile "ab" = .ok ((Nfa.literal 'a').concat (.literal 'b')) := by decide +kernel
  have second : compile "ba" = .ok ((Nfa.literal 'b').concat (.literal 'a')) := by decide +kernel
  obtain ⟨renamed, runs⟩ := literals_are_opaque _ keeps "ab"
  rw [swapped] at renamed runs
  have same := runs apart _ _ first second "ab"
  rw [swapped] at same
  exact ⟨keeps, renamed, same⟩

end PatternAutomata
