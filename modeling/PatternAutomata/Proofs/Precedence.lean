import PatternAutomata.Proofs.ExplicitConcatenation
import PatternAutomata.Proofs.Reordering

/-! Reordering follows the grammar.

A text that stands at some level is read without touching what waited before,
provided that nothing of that strength waits on top. Afterwards only operators
of its own level or of tighter ones are left, and with them behind what was
emitted the tokens are in the order of the expression.
-/

set_option autoImplicit false

namespace PatternAutomata

/-- The strength of the weakest operator at the level outside of brackets. -/
def Level.strength : Level → Nat
  | .union => 0
  | .concat => 1
  | .repetition => 2
  | .atom => 3

def Weaker (strength : Nat) (waiting : List Lexeme) : Prop :=
  ∀ top ∈ waiting.head?, ∀ own ∈ top.token.precedence, own < strength

theorem Weaker.mono {waiting : List Lexeme} {low high : Nat} (weaker : Weaker low waiting)
    (bound : low ≤ high) : Weaker high waiting :=
  fun top first own known => (weaker top first own known).trans_le bound

theorem Weaker.blocked {waiting : List Lexeme} {strength : Nat} {next : Token}
    (weaker : Weaker strength waiting) (operator : next.precedence = some strength) :
    Blocked next waiting := by
  intro top first
  cases known : top.token.precedence with
  | none => simp [Token.appliesBefore, known]
  | some own =>
    have bound := weaker top first own known
    simp [Token.appliesBefore, known, operator, bound]

/-- How a text of the level is read while `waiting` holds what came before. -/
structure Settles (level : Level) (e : Expr) (waiting read out pending : List Lexeme) : Prop where
  run : ∀ rest, reorder waiting (read ++ rest) = (out ++ ·) <$> reorder (pending ++ waiting) rest
  order : (out ++ pending).map (·.token) = e.postorder
  tight : ∀ lexeme ∈ pending, ∃ own, lexeme.token.precedence = some own ∧ level.strength ≤ own

namespace Settles

variable {level tighter : Level} {e left right : Expr}
  {waiting read second out late pending waits : List Lexeme} {next opening closing : Lexeme}

theorem loosen (settles : Settles tighter e waiting read out pending)
    (bound : level.strength ≤ tighter.strength) : Settles level e waiting read out pending where
  run := settles.run
  order := settles.order
  tight := fun lexeme member =>
    let ⟨own, known, tight⟩ := settles.tight lexeme member
    ⟨own, known, bound.trans tight⟩

theorem not_openGroup (settles : Settles level e waiting read out pending) :
    ∀ lexeme ∈ pending, lexeme.token ≠ .openGroup := by
  intro lexeme member token
  obtain ⟨own, known, _⟩ := settles.tight lexeme member
  rw [token] at known
  cases known

/-- An operator of the level's own strength finds all that is pending ready. -/
theorem operate (settles : Settles level e waiting read out pending)
    (operator : next.token.precedence = some level.strength)
    (weaker : Weaker level.strength waiting) (rest : List Lexeme) :
    reorder waiting (read ++ next :: rest) =
      ((out ++ pending) ++ ·) <$> reorder (next :: waiting) rest := by
  have ready : ∀ lexeme ∈ pending, lexeme.token.appliesBefore next.token = true := by
    intro lexeme member
    obtain ⟨own, known, tight⟩ := settles.tight lexeme member
    simp [Token.appliesBefore, known, operator, tight]
  have step : Step (pending ++ waiting) next pending (next :: waiting) :=
    .operator (by simp [Token.isOperator, operator]) ready (weaker.blocked operator)
  rw [settles.run, step.reorder_eq, prepend_prepend]

theorem literal {c : Char} (token : next.token = .literal c) :
    Settles .atom (.literal c) waiting [next] [next] [] where
  run := (Step.literal token).reorder_eq
  order := by simp [Expr.postorder, token]
  tight := fun _ member => absurd member List.not_mem_nil

theorem group (settles : Settles .union e (opening :: waiting) read out pending)
    (opens : opening.token = .openGroup) (closes : closing.token = .closeGroup) :
    Settles .atom e waiting (opening :: read ++ [closing]) (out ++ pending) [] where
  run := by
    intro rest
    have enter : Step waiting opening [] (opening :: waiting) := .openGroup opens
    have leave : Step (pending ++ opening :: waiting) closing pending waiting :=
      .closeGroup closes opens settles.not_openGroup
    rw [List.append_assoc, List.singleton_append, List.cons_append, enter.reorder_eq, prepend_nil,
      settles.run, leave.reorder_eq, prepend_prepend, List.nil_append]
  order := by rw [List.append_nil, settles.order]
  tight := fun _ member => absurd member List.not_mem_nil

theorem quantified {how : Quantifier} (settles : Settles .repetition e waiting read out pending)
    (token : next.token = .quantifier how) (weaker : Weaker Level.repetition.strength waiting) :
    Settles .repetition (.repeated how e) waiting (read ++ [next]) (out ++ pending) [next] where
  run := by
    intro rest
    rw [List.append_assoc, List.singleton_append,
      settles.operate (by rw [token]; rfl) weaker, List.singleton_append]
  order := by
    rw [List.map_append, settles.order, List.map_singleton, token]
    rfl
  tight := by
    intro lexeme member
    rw [List.mem_singleton.mp member, token]
    exact ⟨2, rfl, le_rfl⟩

/-- The right operand of a connective is read while the connective waits below it. -/
theorem joined {how : Connective} (settles : Settles level left waiting read out pending)
    (token : next.token = .connective how)
    (strength : (Token.connective how).precedence = some level.strength)
    (bound : level.strength ≤ tighter.strength) (weaker : Weaker level.strength waiting)
    (after : Settles tighter right (next :: waiting) second late waits) :
    Settles level (.joined how left right) waiting (read ++ next :: second)
      (out ++ pending ++ late) (waits ++ [next]) where
  run := by
    intro rest
    rw [List.append_assoc, List.cons_append, settles.operate (token ▸ strength) weaker, after.run,
      prepend_prepend, List.append_assoc waits, List.singleton_append]
  order := by
    have split : out ++ pending ++ late ++ (waits ++ [next]) =
        (out ++ pending) ++ (late ++ waits) ++ [next] := by
      simp only [List.append_assoc]
    rw [split, List.map_append, List.map_append, settles.order, after.order, List.map_singleton,
      token]
    rfl
  tight := by
    intro lexeme member
    obtain earlier | last := List.mem_append.mp member
    · obtain ⟨own, known, tight⟩ := after.tight lexeme earlier
      exact ⟨own, known, bound.trans tight⟩
    · rw [List.mem_singleton.mp last, token]
      exact ⟨_, strength, le_rfl⟩

end Settles

theorem weaker_cons {waiting : List Lexeme} {next : Lexeme} {operator : Token}
    {strength bound : Nat} (token : next.token = operator)
    (known : operator.precedence = some strength) (less : strength < bound) :
    Weaker bound (next :: waiting) := by
  intro top first own same
  obtain rfl : next = top := Option.some.inj first
  rw [token, known] at same
  obtain rfl : strength = own := Option.some.inj same
  exact less

theorem weaker_openGroup {waiting : List Lexeme} {opening : Lexeme} {strength : Nat}
    (opens : opening.token = .openGroup) : Weaker strength (opening :: waiting) := by
  intro top first own same
  obtain rfl : opening = top := Option.some.inj first
  rw [opens] at same
  cases same

theorem Written.settles {level : Level} {tokens : List Token} {e : Expr}
    (written : Written level tokens e) {read waiting : List Lexeme}
    (spelled : read.map (·.token) = tokens) (weaker : Weaker level.strength waiting) :
    ∃ out pending, Settles level e waiting read out pending := by
  -- over any waiting list, for a right operand is read while its connective waits
  induction written generalizing read waiting with
  | literal =>
    obtain ⟨next, rfl, token⟩ := List.map_eq_singleton_iff.mp spelled
    exact ⟨[next], [], .literal token⟩
  | group _ ih =>
    obtain ⟨front, last, rfl, opened, closed⟩ := List.map_eq_append_iff.mp spelled
    obtain ⟨opening, inner, rfl, opens, inside⟩ := List.map_eq_cons_iff.mp opened
    obtain ⟨closing, rfl, closes⟩ := List.map_eq_singleton_iff.mp closed
    -- an open bracket has no strength, so the group is read as if nothing waited
    obtain ⟨out, pending, settles⟩ := ih inside (weaker_openGroup opens)
    exact ⟨_, _, settles.group opens closes⟩
  | atom _ ih =>
    obtain ⟨out, pending, settles⟩ := ih spelled (weaker.mono (by decide))
    exact ⟨out, pending, settles.loosen (by decide)⟩
  | quantified how _ ih =>
    obtain ⟨body, last, rfl, inside, quantifier⟩ := List.map_eq_append_iff.mp spelled
    obtain ⟨next, rfl, token⟩ := List.map_eq_singleton_iff.mp quantifier
    obtain ⟨out, pending, settles⟩ := ih inside weaker
    exact ⟨_, _, settles.quantified token weaker⟩
  | repetition _ ih =>
    obtain ⟨out, pending, settles⟩ := ih spelled (weaker.mono (by decide))
    exact ⟨out, pending, settles.loosen (by decide)⟩
  | concatenated _ _ ih later =>
    obtain ⟨first, last, rfl, before, behind⟩ := List.map_eq_append_iff.mp spelled
    obtain ⟨next, second, rfl, token, after⟩ := List.map_eq_cons_iff.mp behind
    obtain ⟨out, pending, settles⟩ := ih before weaker
    obtain ⟨late, waits, right⟩ := later after (weaker_cons token rfl Nat.one_lt_two)
    exact ⟨_, _, settles.joined token rfl (by decide) weaker right⟩
  | concat _ ih =>
    obtain ⟨out, pending, settles⟩ := ih spelled (weaker.mono (by decide))
    exact ⟨out, pending, settles.loosen (by decide)⟩
  | union _ _ ih later =>
    obtain ⟨first, last, rfl, before, behind⟩ := List.map_eq_append_iff.mp spelled
    obtain ⟨next, second, rfl, token, after⟩ := List.map_eq_cons_iff.mp behind
    obtain ⟨out, pending, settles⟩ := ih before weaker
    obtain ⟨late, waits, right⟩ := later after (weaker_cons token rfl Nat.zero_lt_one)
    exact ⟨_, _, settles.joined token rfl (by decide) weaker right⟩

theorem Derives.postfixOrder {pattern : String} {e : Expr}
    (derives : Derives .union pattern.toList e) :
    ∃ out, postfixOrder pattern = .ok out ∧ out.map (·.token) = e.postorder := by
  have spelled : (marked (lexemes pattern)).map (·.token) =
      Token.explicit (pattern.toList.map .ofChar) := by
    rw [tokens_marked, tokens_lexemes]
  have nothing : Weaker Level.union.strength [] := fun _ first => by cases first
  obtain ⟨out, pending, settles⟩ := derives.written_explicit.settles spelled nothing
  refine ⟨out ++ pending, ?_, settles.order⟩
  have released : release pending = .ok pending :=
    release_eq_ok_iff.mpr ⟨rfl, settles.not_openGroup⟩
  have run := settles.run []
  rw [List.append_nil, List.append_nil, reorder, released] at run
  exact run

end PatternAutomata
