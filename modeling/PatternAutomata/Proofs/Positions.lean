import PatternAutomata.Proofs.PostfixText

/-! How positions pass through compiling.

No stage asks where a token stands, nor which literal it is. So moving all tokens
moves the position of a failure and changes nothing else, and a failure that has
a position blames one of the tokens, at the position of that token.
-/

set_option autoImplicit false

namespace PatternAutomata

open Token

variable {pattern : String} {waiting pending tokens out : List Lexeme} {next : Lexeme} {place : Nat → Nat}

def Lexeme.moved (place : Nat → Nat) (lexeme : Lexeme) : Lexeme :=
  { lexeme with position := place lexeme.position }

def Diagnostic.moved (place : Nat → Nat) (diagnostic : Diagnostic) : Diagnostic :=
  { diagnostic with position := diagnostic.position.map place }

theorem mapError_eq_ok_iff {α ε ε' : Type} {f : ε → ε'} {result : Except ε α} {a : α} :
    result.mapError f = .ok a ↔ result = .ok a := by
  cases result <;> simp [Except.mapError]

theorem mapError_eq_error_iff {α ε ε' : Type} {f : ε → ε'} {result : Except ε α} {e : ε'} :
    result.mapError f = .error e ↔ ∃ old, result = .error old ∧ f old = e := by
  cases result <;> simp [Except.mapError]

theorem Diagnostic.moved_eq_iff {diagnostic : Diagnostic} {fault : Fault} {position : Option Nat} :
    diagnostic.moved place = ⟨fault, position⟩ ↔
      ∃ old, diagnostic = ⟨fault, old⟩ ∧ old.map place = position := by
  obtain ⟨known, old⟩ := diagnostic
  simp only [moved, mk.injEq]
  constructor
  · intro ⟨same, placed⟩
    exact ⟨old, ⟨same, rfl⟩, placed⟩
  · rintro ⟨_, ⟨same, rfl⟩, placed⟩
    exact ⟨same, placed⟩

theorem lexemes_append (front back : String) :
    lexemes (front ++ back) = lexemes front ++ (lexemes back).map (·.moved (front.length + ·)) := by
  have late : back.toList.zipIdx (0 + front.toList.length) =
      back.toList.zipIdx.map fun placed => (placed.1, front.length + placed.2) := by
    rw [Nat.zero_add, List.zipIdx_eq_map_add, String.length_toList]
  simp only [lexemes, String.toList_append, List.zipIdx_append, List.map_append, late, List.map_map]
  rfl

inductive Token.Alike : Token → Token → Prop where
  | literals (c d : Char) : Alike (.literal c) (.literal d)
  | same (token : Token) : Alike token token

namespace Token.Alike

variable {one two old new token : Token}

theorem precedence_eq (alike : one.Alike two) : two.precedence = one.precedence := by
  cases alike <;> rfl

theorem isOperator_eq (alike : one.Alike two) : two.isOperator = one.isOperator := by
  cases alike <;> rfl

theorem appliesBefore_eq (waiting : one.Alike two) (next : old.Alike new) :
    two.appliesBefore new = one.appliesBefore old := by
  simp only [appliesBefore, waiting.precedence_eq, next.precedence_eq]

theorem meets_eq (left : one.Alike two) (right : old.Alike new) : two.meets new = one.meets old := by
  have awaits : two.awaitsOperand = one.awaitsOperand := by cases left <;> rfl
  have binds : new.bindsLeft = old.bindsLeft := by cases right <;> rfl
  rw [meets, awaits, binds, meets]

theorem eq_iff (alike : one.Alike two) (apart : token.isOperand = false) :
    two = token ↔ one = token := by
  cases alike with
  | same => exact Iff.rfl
  | literals c d =>
    have other (e : Char) : literal e ≠ token := by
      rintro rfl
      cases apart
    exact iff_of_false (other d) (other c)

end Token.Alike

/-- Tokens are redrawn without a change of kind, and those at one position go to one position. -/
structure Redraws (draw : Lexeme → Lexeme) (place : Nat → Nat) : Prop where
  alike : ∀ lexeme : Lexeme, lexeme.token.Alike (draw lexeme).token
  placed : ∀ lexeme : Lexeme, (draw lexeme).position = place lexeme.position

def redrawnOrder (draw : Lexeme → Lexeme) (place : Nat → Nat)
    (result : Except Diagnostic (List Lexeme)) : Except Diagnostic (List Lexeme) :=
  (result.map (·.map draw)).mapError (·.moved place)

theorem redrawnOrder_prepend {draw : Lexeme → Lexeme} (early : List Lexeme)
    (result : Except Diagnostic (List Lexeme)) :
    redrawnOrder draw place ((early ++ ·) <$> result) =
      (early.map draw ++ ·) <$> redrawnOrder draw place result := by
  cases result <;> simp [redrawnOrder, Except.map, Except.mapError]

namespace Redraws

variable {draw : Lexeme → Lexeme} (redraws : Redraws draw place)

include redraws

theorem token_eq_iff {token : Token} (apart : token.isOperand = false) :
    (draw next).token = token ↔ next.token = token :=
  (redraws.alike next).eq_iff apart

theorem marked_map (read : List Lexeme) : marked (read.map draw) = (marked read).map draw := by
  fun_induction marked read with
  | case1 => rfl
  | case2 => rfl
  | case3 first second rest joins ih =>
    have again := (redraws.alike first).meets_eq (redraws.alike second)
    have marker : draw ⟨second.position, .connective .concat⟩ =
        ⟨(draw second).position, .connective .concat⟩ := by
      rw [Lexeme.mk.injEq, redraws.placed, redraws.placed]
      exact ⟨rfl, (redraws.token_eq_iff rfl).mpr rfl⟩
    simp only [List.map_cons, marked, again, joins, if_true, marker] at ih ⊢
    rw [ih]
  | case4 first second rest apart ih =>
    have again := (redraws.alike first).meets_eq (redraws.alike second)
    simp only [List.map_cons, marked, again, apart] at ih ⊢
    rw [ih]
    rfl

theorem blocked (blocked : Blocked next.token waiting) :
    Blocked (draw next).token (waiting.map draw) := by
  intro top first
  rw [List.head?_map, Option.mem_def, Option.map_eq_some_iff] at first
  obtain ⟨old, first, rfl⟩ := first
  rw [(redraws.alike old).appliesBefore_eq (redraws.alike next)]
  exact blocked old first

theorem step {emitted : List Lexeme} (step : Step pending next emitted waiting) :
    Step (pending.map draw) (draw next) (emitted.map draw) (waiting.map draw) := by
  cases step with
  | @literal _ _ c token =>
    have alike := redraws.alike next
    rw [token] at alike
    generalize read : (draw next).token = token at alike
    cases alike with
    | literals _ d => exact .literal read
    | same => exact .literal read
  | openGroup token => exact .openGroup ((redraws.token_eq_iff rfl).mpr token)
  | closeGroup token bracket inner =>
    rw [List.map_append, List.map_cons]
    refine .closeGroup ((redraws.token_eq_iff rfl).mpr token)
      ((redraws.token_eq_iff rfl).mpr bracket) (List.forall_mem_map.mpr fun lexeme member => ?_)
    exact fun same => inner lexeme member ((redraws.token_eq_iff rfl).mp same)
  | operator operator ready blocked =>
    rw [List.map_append, List.map_cons]
    refine .operator ((redraws.alike next).isOperator_eq.trans operator)
      (List.forall_mem_map.mpr fun lexeme member => ?_) (redraws.blocked blocked)
    exact ((redraws.alike lexeme).appliesBefore_eq (redraws.alike next)).trans (ready lexeme member)

theorem release_eq : release (waiting.map draw) = redrawnOrder draw place (release waiting) := by
  induction waiting with
  | nil => rfl
  | cons top waiting ih =>
    rw [List.map_cons, release, release]
    by_cases bracket : top.token = .openGroup
    · rw [if_pos bracket, if_pos ((redraws.token_eq_iff rfl).mpr bracket), redraws.placed]
      rfl
    · rw [if_neg bracket, if_neg (mt (redraws.token_eq_iff rfl).mp bracket), ih]
      exact (redrawnOrder_prepend [top] _).symm

/-- Reordering reports the position of a bracket, and only passes on the others. -/
theorem reorder_eq :
    reorder (waiting.map draw) (tokens.map draw) = redrawnOrder draw place (reorder waiting tokens) := by
  induction tokens generalizing waiting with
  | nil => exact redraws.release_eq
  | cons next rest ih =>
    rw [List.map_cons]
    obtain ⟨emitted, left, step⟩ | ⟨token, free⟩ := exists_step waiting next
    · rw [(redraws.step step).reorder_eq, step.reorder_eq, ih, redrawnOrder_prepend]
    · rw [reorder_unopened token free, reorder_unopened ((redraws.token_eq_iff rfl).mpr token),
        redraws.placed]
      · rfl
      · refine List.forall_mem_map.mpr fun lexeme member same => ?_
        exact free lexeme member ((redraws.token_eq_iff rfl).mp same)

end Redraws

/-! ## Moving all tokens -/

theorem redraws_moved (place : Nat → Nat) : Redraws (·.moved place) place where
  alike lexeme := .same lexeme.token
  placed _ := rfl

theorem marked_moved (read : List Lexeme) :
    marked (read.map (·.moved place)) = (marked read).map (·.moved place) :=
  (redraws_moved place).marked_map read

def movedOrder (place : Nat → Nat) (result : Except Diagnostic (List Lexeme)) :
    Except Diagnostic (List Lexeme) :=
  redrawnOrder (·.moved place) place result

theorem reorder_moved :
    reorder (waiting.map (·.moved place)) (tokens.map (·.moved place)) =
      movedOrder place (reorder waiting tokens) :=
  (redraws_moved place).reorder_eq

theorem build_moved :
    build (tokens.map (·.moved place)) = (build tokens).mapError (·.moved place) := by
  have same : tokens.map (·.token) = (tokens.map (·.moved place)).map (·.token) := by
    rw [List.map_map]
    rfl
  have parallel := Parallel.build same
  generalize build tokens = left at parallel
  generalize build (tokens.map (·.moved place)) = right at parallel
  cases parallel with
  | ok automaton => rfl
  | unplaced fault => rfl
  | @refused spot one two here there same =>
    rw [List.getElem?_map, here] at there
    cases there
    rfl

/-- Patterns whose marked tokens differ in their positions alone compile alike. -/
theorem compile_moved {first second : String}
    (same : marked (lexemes second) = (marked (lexemes first)).map (·.moved place)) :
    compile second = (compile first).mapError (·.moved place) := by
  have order : postfixOrder second = movedOrder place (postfixOrder first) := by
    rw [postfixOrder, same]
    exact @reorder_moved [] _ place
  rw [compile, compile, order]
  cases postfixOrder first with
  | error diagnostic => rfl
  | ok out => exact build_moved

/-! ## What is blamed -/

def Fault.blamed? : Fault → Option Token
  | .unclosedGroup => some .openGroup
  | .unopenedGroup => some .closeGroup
  | .missingOperand operator => some operator
  | .bracketInPostfix | .unjoinedOperands _ | .unknownState _ => none

def Diagnostic.Blames (diagnostic : Diagnostic) (tokens : List Lexeme) : Prop :=
  ∃ lexeme ∈ tokens, diagnostic.position = some lexeme.position ∧
    diagnostic.fault.blamed? = some lexeme.token

variable {diagnostic : Diagnostic} {more : List Lexeme}

theorem Diagnostic.Blames.mono (blames : diagnostic.Blames tokens)
    (subset : ∀ lexeme ∈ tokens, lexeme ∈ more) : diagnostic.Blames more := by
  obtain ⟨lexeme, member, position, token⟩ := blames
  exact ⟨lexeme, subset lexeme member, position, token⟩

theorem map_eq_error_iff {α β ε : Type} {f : α → β} {result : Except ε α} {e : ε} :
    f <$> result = .error e ↔ result = .error e := by
  cases result <;> simp [Functor.map, Except.map]

theorem blames_of_release (failed : release waiting = .error diagnostic) :
    diagnostic.Blames waiting := by
  induction waiting with
  | nil => cases failed
  | cons top waiting ih =>
    rw [release] at failed
    split at failed
    · rename_i bracket
      cases failed
      exact ⟨top, List.mem_cons_self, rfl, by rw [bracket]; rfl⟩
    · exact (ih (map_eq_error_iff.mp failed)).mono fun _ => List.mem_cons_of_mem _

theorem Step.mem_of_mem {emitted : List Lexeme} (step : Step pending next emitted waiting) :
    ∀ lexeme ∈ waiting, lexeme = next ∨ lexeme ∈ pending := by
  intro lexeme member
  cases step with
  | literal _ => exact .inr member
  | openGroup _ => exact List.mem_cons.mp member
  | closeGroup _ _ _ => exact .inr (List.mem_append_right _ (List.mem_cons_of_mem _ member))
  | operator _ _ _ => exact (List.mem_cons.mp member).imp_right (List.mem_append_right _)

theorem blames_of_reorder (failed : reorder waiting tokens = .error diagnostic) :
    diagnostic.Blames (tokens ++ waiting) := by
  induction tokens generalizing waiting with
  | nil => exact blames_of_release failed
  | cons next rest ih =>
    obtain ⟨emitted, left, step⟩ | ⟨token, free⟩ := exists_step waiting next
    · rw [step.reorder_eq, map_eq_error_iff] at failed
      refine (ih failed).mono fun lexeme member => ?_
      rcases List.mem_append.mp member with later | waits
      · exact List.mem_append_left _ (List.mem_cons_of_mem _ later)
      · rcases step.mem_of_mem lexeme waits with rfl | old
        · exact List.mem_append_left _ List.mem_cons_self
        · exact List.mem_append_right _ old
    · rw [reorder_unopened token free] at failed
      cases failed
      exact ⟨next, List.mem_append_left _ List.mem_cons_self, rfl, by rw [token]; rfl⟩

theorem Parallel.exists_refused {α : Type} {first second : List Lexeme}
    {left right : Except Diagnostic α} (parallel : Parallel first second left right)
    (failed : left = .error diagnostic) :
    (∃ lexeme ∈ first, diagnostic = ⟨lexeme.token.refusal, some lexeme.position⟩) ∨
      diagnostic.position = none := by
  cases parallel with
  | ok a => cases failed
  | refused here _ _ =>
    cases failed
    exact .inl ⟨_, List.mem_of_getElem? here, rfl⟩
  | unplaced fault =>
    cases failed
    exact .inr rfl

theorem blames_of_build (free : ∀ lexeme ∈ tokens, lexeme.token.isBracket = false)
    (failed : build tokens = .error diagnostic) :
    diagnostic.Blames tokens ∨ diagnostic.position = none := by
  refine ((Parallel.build rfl).exists_refused failed).imp_left ?_
  rintro ⟨lexeme, member, rfl⟩
  exact ⟨lexeme, member, rfl, by rw [refusal_of_not_isBracket (free lexeme member)]; rfl⟩

/-- A failure with a position blames the token that stands there in the marked pattern. -/
theorem blames_of_compile (failed : compile pattern = .error diagnostic) :
    diagnostic.Blames (marked (lexemes pattern)) ∨ diagnostic.position = none := by
  rw [compile] at failed
  cases known : postfixOrder pattern with
  | error other =>
    rw [known] at failed
    cases failed
    have blames := blames_of_reorder known
    rw [List.append_nil] at blames
    exact .inl blames
  | ok out =>
    rw [known] at failed
    have kept := mem_marked_of_postfixOrder known
    refine (blames_of_build (fun lexeme member => (kept lexeme member).2) failed).imp_left ?_
    exact fun blames => blames.mono fun lexeme member => (kept lexeme member).1

end PatternAutomata
