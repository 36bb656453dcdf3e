import Mathlib.Data.List.TakeWhile
import PatternAutomata.Compile

/-! The steps of moving operators behind their operands.

Each kind of token has its own step, stated for a waiting list that is already
divided where the token divides it. A run that ends well emits every token that
is not a bracket once, and it ends well exactly when the brackets nest.
-/

set_option autoImplicit false

namespace PatternAutomata

variable {waiting pending rest out : List Lexeme} {next : Lexeme}

section Outcomes

variable {α β ε α' β' : Type}

theorem map_eq_ok_iff {f : α → β} {result : Except ε α} {b : β} :
    f <$> result = .ok b ↔ ∃ a, result = .ok a ∧ f a = b := by
  cases result <;> simp [Functor.map, Except.map]

theorem bind_eq_ok_iff {f : α → Except ε β} {result : Except ε α} {b : β} :
    result >>= f = .ok b ↔ ∃ a, result = .ok a ∧ f a = .ok b := by
  cases result <;> simp [bind, Except.bind]

theorem foldlM_map {step : α → β → Except ε α} {step' : α' → β' → Except ε α'} {f : α → α'}
    {g : β → β'} (alike : ∀ state item, step' (f state) (g item) = f <$> step state item)
    (state : α) (items : List β) :
    (items.map g).foldlM step' (f state) = f <$> items.foldlM step state := by
  induction items generalizing state with
  | nil => rfl
  | cons item rest ih =>
    rw [List.map_cons, List.foldlM_cons, List.foldlM_cons, alike]
    cases step state item with
    | error e => rfl
    | ok after => exact ih after

end Outcomes

theorem prepend_prepend (early late : List Lexeme) (result : Except Diagnostic (List Lexeme)) :
    (early ++ ·) <$> (late ++ ·) <$> result = ((early ++ late) ++ ·) <$> result := by
  cases result <;> simp

theorem prepend_nil (result : Except Diagnostic (List Lexeme)) : ([] ++ ·) <$> result = result := by
  cases result <;> simp

/-- Nothing that waits on top is applied before the next token. -/
def Blocked (next : Token) (waiting : List Lexeme) : Prop :=
  ∀ top ∈ waiting.head?, top.token.appliesBefore next = false

/-- One token is read: what waited, the token, what is emitted and what waits then. -/
inductive Step : List Lexeme → Lexeme → List Lexeme → List Lexeme → Prop where
  | literal {waiting : List Lexeme} {next : Lexeme} {c : Char} :
      next.token = .literal c → Step waiting next [next] waiting
  | openGroup {waiting : List Lexeme} {next : Lexeme} :
      next.token = .openGroup → Step waiting next [] (next :: waiting)
  | closeGroup {pending waiting : List Lexeme} {opening next : Lexeme} :
      next.token = .closeGroup → opening.token = .openGroup →
      (∀ lexeme ∈ pending, lexeme.token ≠ .openGroup) →
      Step (pending ++ opening :: waiting) next pending waiting
  | operator {pending waiting : List Lexeme} {next : Lexeme} :
      next.token.isOperator = true →
      (∀ lexeme ∈ pending, lexeme.token.appliesBefore next.token = true) →
      Blocked next.token waiting → Step (pending ++ waiting) next pending (next :: waiting)

theorem reorder_operator (operator : next.token.isOperator = true) :
    reorder waiting (next :: rest) =
      (waiting.takeWhile (·.token.appliesBefore next.token) ++ ·) <$>
        reorder (next :: waiting.dropWhile (·.token.appliesBefore next.token)) rest := by
  cases token : next.token with
  | quantifier kind => rw [reorder, token]
  | connective kind => rw [reorder, token]
  | literal c => simp [token, Token.isOperator, Token.precedence] at operator
  | openGroup => simp [token, Token.isOperator, Token.precedence] at operator
  | closeGroup => simp [token, Token.isOperator, Token.precedence] at operator

theorem Blocked.takeWhile_eq {next : Token} (blocked : Blocked next waiting) :
    waiting.takeWhile (·.token.appliesBefore next) = [] := by
  cases waiting with
  | nil => rfl
  | cons top waiting => exact List.takeWhile_cons_of_neg (by simp [blocked top rfl])

theorem Blocked.dropWhile_eq {next : Token} (blocked : Blocked next waiting) :
    waiting.dropWhile (·.token.appliesBefore next) = waiting := by
  cases waiting with
  | nil => rfl
  | cons top waiting => exact List.dropWhile_cons_of_neg (by simp [blocked top rfl])

theorem Step.reorder_eq {emitted : List Lexeme} (step : Step pending next emitted waiting)
    (rest : List Lexeme) :
    reorder pending (next :: rest) = (emitted ++ ·) <$> reorder waiting rest := by
  cases step with
  | literal token =>
    rw [reorder, token]
    rfl
  | openGroup token => rw [reorder, token, prepend_nil]
  | @closeGroup _ _ opening _ token bracket inner =>
    have pass : ∀ lexeme ∈ emitted, decide (lexeme.token ≠ .openGroup) = true :=
      fun lexeme member => decide_eq_true (inner lexeme member)
    have front : (opening :: waiting).takeWhile (·.token ≠ .openGroup) = [] := by simp [bracket]
    have back : (opening :: waiting).dropWhile (·.token ≠ .openGroup) = opening :: waiting := by
      simp [bracket]
    rw [reorder, token]
    simp only [List.takeWhile_append_of_pos pass, List.dropWhile_append_of_pos pass, front, back,
      List.append_nil]
  | operator operator ready blocked =>
    rw [reorder_operator operator, List.takeWhile_append_of_pos ready,
      List.dropWhile_append_of_pos ready, blocked.takeWhile_eq, blocked.dropWhile_eq,
      List.append_nil]

theorem exists_ready (next : Token) (waiting : List Lexeme) :
    ∃ ready kept, waiting = ready ++ kept ∧
      (∀ lexeme ∈ ready, lexeme.token.appliesBefore next = true) ∧ Blocked next kept := by
  refine ⟨waiting.takeWhile (·.token.appliesBefore next),
    waiting.dropWhile (·.token.appliesBefore next), List.takeWhile_append_dropWhile.symm, ?_, ?_⟩
  · intro lexeme member
    exact List.all_eq_true.mp List.all_takeWhile lexeme member
  · intro top first
    have stopped := List.head?_dropWhile_not (·.token.appliesBefore next) waiting
    rw [Option.mem_def.mp first] at stopped
    simpa using stopped

theorem exists_opening (waiting : List Lexeme) :
    (∀ lexeme ∈ waiting, lexeme.token ≠ .openGroup) ∨
      ∃ inner opening outer, waiting = inner ++ opening :: outer ∧ opening.token = .openGroup ∧
        ∀ lexeme ∈ inner, lexeme.token ≠ .openGroup := by
  induction waiting with
  | nil => exact .inl fun _ member => absurd member List.not_mem_nil
  | cons top waiting ih =>
    by_cases bracket : top.token = .openGroup
    · exact .inr ⟨[], top, waiting, rfl, bracket, fun _ member => absurd member List.not_mem_nil⟩
    · obtain free | ⟨inner, opening, outer, rfl, found, free⟩ := ih
      · exact .inl (List.forall_mem_cons.mpr ⟨bracket, free⟩)
      · exact .inr ⟨top :: inner, opening, outer, rfl, found,
          List.forall_mem_cons.mpr ⟨bracket, free⟩⟩

/-- Only a closing bracket without an opening one cannot be read. -/
theorem exists_step (waiting : List Lexeme) (next : Lexeme) :
    (∃ emitted left, Step waiting next emitted left) ∨
      next.token = .closeGroup ∧ ∀ lexeme ∈ waiting, lexeme.token ≠ .openGroup := by
  have operated (operator : next.token.isOperator = true) :
      ∃ emitted left, Step waiting next emitted left := by
    obtain ⟨ready, kept, rfl, before, blocked⟩ := exists_ready next.token waiting
    exact ⟨_, _, .operator operator before blocked⟩
  cases token : next.token with
  | literal c => exact .inl ⟨_, _, .literal token⟩
  | openGroup => exact .inl ⟨_, _, .openGroup token⟩
  | quantifier kind => exact .inl (operated (by rw [token]; rfl))
  | connective kind => exact .inl (operated (by rw [token]; cases kind <;> rfl))
  | closeGroup =>
    obtain free | ⟨inner, opening, outer, rfl, bracket, free⟩ := exists_opening waiting
    · exact .inr ⟨rfl, free⟩
    · exact .inl ⟨_, _, .closeGroup token bracket free⟩

theorem reorder_unopened (token : next.token = .closeGroup)
    (free : ∀ lexeme ∈ waiting, lexeme.token ≠ .openGroup) :
    reorder waiting (next :: rest) = .error ⟨.unopenedGroup, some next.position⟩ := by
  have none : waiting.dropWhile (·.token ≠ .openGroup) = [] :=
    List.dropWhile_eq_nil_iff.mpr fun lexeme member => decide_eq_true (free lexeme member)
  rw [reorder, token]
  simp only [none]

theorem release_eq_ok_iff :
    release waiting = .ok out ↔ out = waiting ∧ ∀ lexeme ∈ waiting, lexeme.token ≠ .openGroup := by
  induction waiting generalizing out with
  | nil =>
    rw [release, Except.ok.injEq, eq_comm, and_iff_left]
    exact fun _ member => absurd member List.not_mem_nil
  | cons top waiting ih =>
    rw [release, List.forall_mem_cons]
    by_cases bracket : top.token = .openGroup
    · simp [bracket]
    · rw [if_neg bracket, map_eq_ok_iff]
      simp only [ih, and_iff_right bracket]
      constructor
      · intro ⟨late, ⟨same, free⟩, emitted⟩
        exact ⟨by rw [← emitted, same], free⟩
      · intro ⟨same, free⟩
        exact ⟨waiting, ⟨rfl, free⟩, same.symm⟩

/-! ## What is emitted -/

def Token.isBracket : Token → Bool
  | .openGroup | .closeGroup => true
  | .literal _ | .quantifier _ | .connective _ => false

def unbracketed (lexemes : List Lexeme) : List Lexeme := lexemes.filter (!·.token.isBracket)

theorem unbracketed_append (front back : List Lexeme) :
    unbracketed (front ++ back) = unbracketed front ++ unbracketed back :=
  List.filter_append ..

theorem unbracketed_cons_of_bracket (bracket : next.token.isBracket = true) :
    unbracketed (next :: rest) = unbracketed rest :=
  List.filter_cons_of_neg (by simp [bracket])

theorem unbracketed_cons_of_free (free : next.token.isBracket = false) :
    unbracketed (next :: rest) = next :: unbracketed rest :=
  List.filter_cons_of_pos (by simp [free])

theorem unbracketed_of_free (free : ∀ lexeme ∈ waiting, lexeme.token.isBracket = false) :
    unbracketed waiting = waiting :=
  List.filter_eq_self.mpr fun lexeme member => by simp [free lexeme member]

theorem Token.isBracket_of_isOperator {token : Token} (operator : token.isOperator = true) :
    token.isBracket = false := by
  cases token <;> simp_all [isOperator, precedence, isBracket]

theorem Token.isBracket_of_ne {token : Token} (notOpen : token ≠ .openGroup)
    (notClose : token ≠ .closeGroup) : token.isBracket = false := by
  cases token <;> simp_all [isBracket]

theorem Token.isBracket_of_appliesBefore {waiting next : Token}
    (before : waiting.appliesBefore next = true) : waiting.isBracket = false := by
  cases waiting <;> simp_all [appliesBefore, precedence, isBracket]

def Unclosed (waiting : List Lexeme) : Prop := ∀ lexeme ∈ waiting, lexeme.token ≠ .closeGroup

theorem Step.unclosed {emitted : List Lexeme} (step : Step pending next emitted waiting)
    (unclosed : Unclosed pending) : Unclosed waiting := by
  cases step with
  | literal _ => exact unclosed
  | openGroup token => exact List.forall_mem_cons.mpr ⟨by simp [token], unclosed⟩
  | closeGroup _ _ _ =>
    intro lexeme member
    exact unclosed lexeme (List.mem_append_right _ (List.mem_cons_of_mem _ member))
  | operator operator _ _ =>
    refine List.forall_mem_cons.mpr ⟨?_, fun lexeme member =>
      unclosed lexeme (List.mem_append_right _ member)⟩
    intro token
    simp [token, Token.isOperator, Token.precedence] at operator

theorem Step.perm {emitted : List Lexeme} (step : Step pending next emitted waiting)
    (unclosed : Unclosed pending) :
    (emitted ++ unbracketed waiting).Perm (unbracketed (next :: pending)) := by
  cases step with
  | literal token => rw [unbracketed_cons_of_free (by rw [token]; rfl), List.singleton_append]
  | openGroup token =>
    rw [unbracketed_cons_of_bracket (by rw [token]; rfl), List.nil_append]
  | closeGroup token bracket inner =>
    have free : ∀ lexeme ∈ emitted, lexeme.token.isBracket = false := fun lexeme member =>
      Token.isBracket_of_ne (inner lexeme member) (unclosed lexeme (List.mem_append_left _ member))
    rw [unbracketed_cons_of_bracket (by rw [token]; rfl), unbracketed_append,
      unbracketed_cons_of_bracket (by rw [bracket]; rfl), unbracketed_of_free free]
  | operator operator ready _ =>
    have free := Token.isBracket_of_isOperator operator
    -- what was ready goes out, and the operator waits in its place
    rw [unbracketed_cons_of_free free, unbracketed_cons_of_free free, unbracketed_append,
      unbracketed_of_free fun lexeme member =>
        Token.isBracket_of_appliesBefore (ready lexeme member)]
    exact List.perm_middle

theorem reorder_perm {tokens : List Lexeme} (unclosed : Unclosed waiting)
    (known : reorder waiting tokens = .ok out) : out.Perm (unbracketed (tokens ++ waiting)) := by
  induction tokens generalizing waiting out with
  | nil =>
    rw [reorder] at known
    obtain ⟨rfl, free⟩ := release_eq_ok_iff.mp known
    rw [List.nil_append, unbracketed_of_free fun lexeme member =>
      Token.isBracket_of_ne (free lexeme member) (unclosed lexeme member)]
  | cons next rest ih =>
    obtain ⟨emitted, left, step⟩ | ⟨token, free⟩ := exists_step waiting next
    · rw [step.reorder_eq, map_eq_ok_iff] at known
      obtain ⟨late, later, rfl⟩ := known
      have tail := ih (step.unclosed unclosed) later
      calc List.Perm (emitted ++ late) (emitted ++ unbracketed (rest ++ left)) :=
          tail.append_left _
        List.Perm _ (unbracketed rest ++ (emitted ++ unbracketed left)) := by
          rw [unbracketed_append]
          exact List.perm_append_comm_assoc ..
        List.Perm _ (unbracketed rest ++ unbracketed (next :: waiting)) :=
          (step.perm unclosed).append_left _
        List.Perm _ (unbracketed (next :: rest ++ waiting)) := by
          rw [← unbracketed_append]
          exact List.perm_middle.filter _
    -- a run that ended well has read no closing bracket too many
    · rw [reorder_unopened token free] at known
      cases known

theorem postfix_perm {read : List Lexeme} (known : reorder [] read = .ok out) :
    out.Perm (unbracketed read) := by
  have same := reorder_perm (fun _ member => absurd member List.not_mem_nil) known
  rwa [List.append_nil] at same

theorem postfix_eq_nil_iff {read : List Lexeme} (known : reorder [] read = .ok out) :
    out = [] ↔ ∀ token ∈ read.map (·.token), token.isBracket = true := by
  have same := postfix_perm known
  rw [List.forall_mem_map]
  constructor
  · intro empty
    rw [empty] at same
    have none := List.filter_eq_nil_iff.mp same.nil_eq.symm
    intro lexeme member
    simpa using none lexeme member
  · intro brackets
    have none : unbracketed read = [] :=
      List.filter_eq_nil_iff.mpr fun lexeme member => by simp [brackets lexeme member]
    rw [none] at same
    exact same.eq_nil

/-! ## When it succeeds -/

/-- Every closing bracket has its opening one, `depth` of which came before, and all are closed. -/
def Token.nests : Nat → List Token → Bool
  | depth, [] => depth = 0
  | depth, .openGroup :: rest => nests (depth + 1) rest
  | 0, .closeGroup :: _ => false
  | depth + 1, .closeGroup :: rest => nests depth rest
  | depth, .literal _ :: rest | depth, .quantifier _ :: rest | depth, .connective _ :: rest =>
    nests depth rest

def openings (waiting : List Lexeme) : Nat := waiting.countP (·.token = .openGroup)

theorem openings_append (front back : List Lexeme) :
    openings (front ++ back) = openings front + openings back :=
  List.countP_append

theorem openings_eq_zero_iff :
    openings waiting = 0 ↔ ∀ lexeme ∈ waiting, lexeme.token ≠ .openGroup := by
  simp [openings, List.countP_eq_zero]

theorem openings_cons_of_ne (free : next.token ≠ .openGroup) :
    openings (next :: waiting) = openings waiting :=
  List.countP_cons_of_neg (by simp [free])

theorem openings_cons_of_eq (bracket : next.token = .openGroup) :
    openings (next :: waiting) = openings waiting + 1 :=
  List.countP_cons_of_pos (by simp [bracket])

theorem Token.nests_of_not_isBracket {next : Token} {depth : Nat} {rest : List Token}
    (free : next.isBracket = false) : nests depth (next :: rest) = nests depth rest := by
  cases next <;> first | rfl | cases free

theorem Step.nests {emitted : List Lexeme} {tokens : List Token}
    (step : Step pending next emitted waiting) :
    Token.nests (openings pending) (next.token :: tokens) =
      Token.nests (openings waiting) tokens := by
  cases step with
  | literal token => rw [token, Token.nests_of_not_isBracket rfl]
  | openGroup token => rw [token, openings_cons_of_eq token, Token.nests]
  | closeGroup token bracket inner =>
    rw [token, openings_append, openings_eq_zero_iff.mpr inner, openings_cons_of_eq bracket,
      Nat.zero_add, Token.nests]
  | operator operator ready _ =>
    have free := Token.isBracket_of_isOperator operator
    have none : openings emitted = 0 := openings_eq_zero_iff.mpr fun lexeme member token => by
      simpa [token, Token.appliesBefore, Token.precedence] using ready lexeme member
    have other : next.token ≠ .openGroup := fun token => by simp [token, Token.isBracket] at free
    rw [Token.nests_of_not_isBracket free, openings_append, none, openings_cons_of_ne other,
      Nat.zero_add]

theorem reorder_isOk_iff {tokens : List Lexeme} :
    (∃ out, reorder waiting tokens = .ok out) ↔
      Token.nests (openings waiting) (tokens.map (·.token)) = true := by
  induction tokens generalizing waiting with
  | nil =>
    rw [reorder, List.map_nil, Token.nests, decide_eq_true_iff, openings_eq_zero_iff]
    simp only [release_eq_ok_iff, exists_eq_left]
  | cons next rest ih =>
    obtain ⟨emitted, left, step⟩ | ⟨token, free⟩ := exists_step waiting next
    · rw [step.reorder_eq, List.map_cons, step.nests, ← ih]
      simp only [map_eq_ok_iff]
      constructor
      · intro ⟨out, late, known, _⟩
        exact ⟨late, known⟩
      · intro ⟨late, known⟩
        exact ⟨emitted ++ late, late, known, rfl⟩
    · rw [reorder_unopened token free, List.map_cons, token, openings_eq_zero_iff.mpr free]
      simp [Token.nests]

end PatternAutomata
