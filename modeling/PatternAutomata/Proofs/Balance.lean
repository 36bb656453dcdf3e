import Mathlib.Data.List.Chain
import PatternAutomata.Proofs.Precedence
import PatternAutomata.Proofs.Reading

/-! Operands counted against connectives.

An expression has one literal more than it has connectives. Markers are put in
wherever operands meet, so no order of the tokens has more literals than that,
and one with as many has every operator where it finds its operands.
-/

set_option autoImplicit false

namespace PatternAutomata

namespace Token

def isConnective : Token → Bool
  | .connective _ => true
  | .literal _ | .quantifier _ | .openGroup | .closeGroup => false

def operands (tokens : List Token) : Nat := tokens.countP isOperand

def connectives (tokens : List Token) : Nat := tokens.countP isConnective

/-- Neighbours fit unless each of them needs an operand in the place of the other. -/
def Fits (left right : Token) : Prop := left.awaitsOperand = false ∨ right.bindsLeft = false

/-- What the marking makes of the tokens that follow `before`. -/
def following (before : Token) : List Token → List Token
  | [] => []
  | next :: rest => gap before next ++ next :: next.following rest

variable {before : Token} {tokens : List Token}

theorem explicit_cons (first : Token) (rest : List Token) :
    explicit (first :: rest) = first :: first.following rest := by
  induction rest generalizing first with
  | nil => rfl
  | cons second rest ih => rw [explicit, ih, following, List.cons_append]

theorem explicit_eq_following (tokens : List Token) :
    explicit tokens = openGroup.following tokens := by
  cases tokens with
  | nil => rfl
  | cons first rest => rw [explicit_cons, following, gap_eq_nil_of_awaits rfl, List.nil_append]

theorem connectives_append (front back : List Token) :
    connectives (front ++ back) = connectives front + connectives back :=
  List.countP_append

theorem operands_cons (next : Token) (rest : List Token) :
    operands (next :: rest) = operands [next] + operands rest := by
  have joined : operands ([next] ++ rest) = operands [next] + operands rest := List.countP_append
  exact joined

def completed (token : Token) : Nat := if token.awaitsOperand then 0 else 1

/-- A token brings no more literals than it and the marker before it bring connectives, counting
also what was complete before and after. Nothing is missing only if the neighbours fit. -/
theorem operands_singleton_le (before next : Token) :
    operands [next] + before.completed ≤
      connectives (gap before next) + connectives [next] + next.completed ∧
    (operands [next] + before.completed =
      connectives (gap before next) + connectives [next] + next.completed → Fits before next) := by
  -- only the kinds of the two tokens matter
  cases before <;> cases next <;>
    simp [completed, operands, connectives, gap, meets, Fits, isOperand, isConnective,
      awaitsOperand, bindsLeft]

theorem operands_le_following (before : Token) (tokens : List Token) :
    operands tokens + before.completed ≤ connectives (before.following tokens) + 1 ∧
    (operands tokens + before.completed = connectives (before.following tokens) + 1 →
      List.IsChain Fits (before :: tokens ++ [.closeGroup])) := by
  induction tokens generalizing before with
  | nil =>
    cases awaits : before.awaitsOperand <;>
      simp [completed, operands, connectives, following, Fits, awaits]
  | cons next rest ih =>
    obtain ⟨bound, chained⟩ := ih next
    obtain ⟨share, fits⟩ := operands_singleton_le before next
    have more := operands_cons next rest
    have marks : connectives (before.following (next :: rest)) =
        connectives (gap before next) + connectives [next] + connectives (next.following rest) := by
      rw [following, connectives_append, Nat.add_assoc]
      exact congrArg _ (connectives_append [next] _)
    constructor
    · omega
    -- equality in the sum needs equality in both of its parts
    · intro same
      exact List.isChain_cons_cons.mpr ⟨fits (by omega), chained (by omega)⟩

/-- A pattern with one literal more than it has connectives in writing is a chain of fitting
neighbours, even in brackets. -/
theorem isChain_of_operands (same : operands tokens = connectives (explicit tokens) + 1) :
    List.IsChain Fits (.openGroup :: tokens ++ [.closeGroup]) := by
  rw [explicit_eq_following] at same
  exact (operands_le_following .openGroup tokens).2 same

theorem operands_following (before : Token) (tokens : List Token) :
    operands (before.following tokens) = operands tokens := by
  induction tokens generalizing before with
  | nil => rfl
  | cons next rest ih =>
    have none : operands (gap before next) = 0 := by
      unfold gap
      split <;> rfl
    have divided : operands (before.following (next :: rest)) =
        operands (gap before next) + operands (next :: next.following rest) :=
      List.countP_append
    rw [divided, none, Nat.zero_add, operands_cons, ih, ← operands_cons]

theorem nests_following (depth : Nat) (before : Token) (tokens : List Token) :
    nests depth (before.following tokens) = nests depth tokens := by
  induction tokens generalizing before depth with
  | nil => rfl
  | cons next rest ih =>
    have unmarked (tail : List Token) : nests depth (gap before next ++ tail) = nests depth tail := by
      unfold gap
      split <;> rfl
    rw [following, unmarked]
    cases next with
    | literal c => exact ih ..
    | quantifier kind => exact ih ..
    | connective kind => exact ih ..
    | openGroup => exact ih ..
    | closeGroup =>
      cases depth with
      | zero => rfl
      | succ depth => exact ih ..

end Token

open Token

theorem operands_explicit (tokens : List Token) : operands (explicit tokens) = operands tokens := by
  rw [explicit_eq_following, operands_following]

theorem nests_explicit (tokens : List Token) : nests 0 (explicit tokens) = nests 0 tokens := by
  rw [explicit_eq_following, nests_following]

theorem Expr.operands_postorder (e : Expr) :
    operands e.postorder = connectives e.postorder + 1 := by
  induction e with
  | literal c => rfl
  | joined how left right leftIH rightIH =>
    simp only [operands, connectives, postorder, List.countP_append] at leftIH rightIH ⊢
    rw [leftIH, rightIH]
    change _ + 0 = _ + _ + 1 + 1
    omega
  | repeated how body ih =>
    simp only [operands, connectives, postorder, List.countP_append] at ih ⊢
    rw [ih]
    rfl

theorem countP_reordered {read out : List Lexeme} (counted : Token → Bool)
    (free : ∀ token, counted token = true → token.isBracket = false)
    (known : reorder [] read = .ok out) :
    (out.map (·.token)).countP counted = (read.map (·.token)).countP counted := by
  rw [List.countP_map, List.countP_map, (postfix_perm known).countP_eq, unbracketed, List.countP_filter]
  refine List.countP_congr fun lexeme _ => ?_
  simp only [Function.comp_apply, Bool.and_eq_true, and_iff_left_iff_imp]
  intro found
  rw [free _ found]
  rfl

theorem operands_reordered {read out : List Lexeme} (known : reorder [] read = .ok out) :
    operands (out.map (·.token)) = operands (read.map (·.token)) := by
  refine countP_reordered isOperand (fun token found => ?_) known
  cases token <;> simp_all [isOperand, isBracket]

theorem connectives_reordered {read out : List Lexeme} (known : reorder [] read = .ok out) :
    connectives (out.map (·.token)) = connectives (read.map (·.token)) := by
  refine countP_reordered isConnective (fun token found => ?_) known
  cases token <;> simp_all [isConnective, isBracket]

/-! ## Nothing but brackets -/

theorem nests_replicate_openGroup (depth count : Nat) (tokens : List Token) :
    nests depth (List.replicate count .openGroup ++ tokens) = nests (depth + count) tokens := by
  induction count generalizing depth with
  | zero => rfl
  | succ count ih =>
    rw [List.replicate_succ, List.cons_append, nests, ih, Nat.add_assoc, Nat.add_comm 1]

theorem nests_replicate_closeGroup (depth count : Nat) :
    nests depth (List.replicate count .closeGroup) = true ↔ depth = count := by
  induction count generalizing depth with
  | zero => simp [nests]
  | succ count ih =>
    cases depth with
    | zero => simp [List.replicate_succ, nests]
    | succ depth => rw [List.replicate_succ, nests, ih, Nat.add_right_cancel_iff]

/-- A closing bracket followed by an opening one would have been marked. -/
theorem eq_replicate_of_isBracket {tokens : List Token}
    (brackets : ∀ token ∈ explicit tokens, token.isBracket = true) :
    ∃ opened closed,
      tokens = List.replicate opened .openGroup ++ List.replicate closed .closeGroup := by
  induction tokens with
  | nil => exact ⟨0, 0, rfl⟩
  | cons first rest ih =>
    rw [explicit_cons, List.forall_mem_cons] at brackets
    obtain ⟨bracket, brackets⟩ := brackets
    have later : ∀ token ∈ explicit rest, token.isBracket = true := by
      cases rest with
      | nil => exact List.forall_mem_nil _
      | cons second more =>
        intro token member
        rw [explicit_cons] at member
        exact brackets token (List.mem_append_right _ member)
    obtain ⟨opened, closed, rfl⟩ := ih later
    cases first with
    | literal c => cases bracket
    | quantifier how => cases bracket
    | connective how => cases bracket
    | openGroup => exact ⟨opened + 1, closed, rfl⟩
    | closeGroup =>
      cases opened with
      | zero => exact ⟨0, closed + 1, rfl⟩
      | succ opened => exact absurd (brackets (.connective .concat) (.head _)) (by decide)

theorem eq_replicate_of_nests {tokens : List Token}
    (brackets : ∀ token ∈ explicit tokens, token.isBracket = true)
    (nested : nests 0 tokens = true) :
    ∃ depth, tokens = List.replicate depth .openGroup ++ List.replicate depth .closeGroup := by
  obtain ⟨opened, closed, rfl⟩ := eq_replicate_of_isBracket brackets
  rw [nests_replicate_openGroup, Nat.zero_add, nests_replicate_closeGroup] at nested
  exact ⟨closed, by rw [nested]⟩

theorem following_openGroup_replicate (count : Nat) (tokens : List Token) :
    openGroup.following (List.replicate count .openGroup ++ tokens) =
      List.replicate count .openGroup ++ openGroup.following tokens := by
  induction count with
  | zero => rfl
  | succ count ih =>
    rw [List.replicate_succ, List.cons_append, following, ih, gap_eq_nil_of_awaits rfl]
    rfl

theorem following_replicate_closeGroup (before : Token) (count : Nat) :
    before.following (List.replicate count .closeGroup) = List.replicate count .closeGroup := by
  induction count generalizing before with
  | zero => rfl
  | succ count ih => rw [List.replicate_succ, following, ih, gap_eq_nil_of_binds rfl, List.nil_append]

theorem explicit_replicate (depth : Nat) :
    explicit (List.replicate depth .openGroup ++ List.replicate depth .closeGroup) =
      List.replicate depth .openGroup ++ List.replicate depth .closeGroup := by
  rw [explicit_eq_following, following_openGroup_replicate, following_replicate_closeGroup]

end PatternAutomata
