import PatternAutomata.Concatenation
import PatternAutomata.Grammar

/-! Patterns with every concatenation in writing.

Which markers are put in depends on the tokens alone and not on their places.
A text of the grammar keeps its expression, and of the two ways to concatenate
only the written one remains.
-/

set_option autoImplicit false

namespace PatternAutomata

namespace Token

def gap (left right : Token) : List Token :=
  if left.meets right then [.connective .concat] else []

def explicit : List Token → List Token
  | [] => []
  | [last] => [last]
  | first :: second :: rest => first :: gap first second ++ explicit (second :: rest)

theorem explicit_append {front back : List Token} {left right : Token} :
    explicit (front ++ left :: right :: back) =
      explicit (front ++ [left]) ++ gap left right ++ explicit (right :: back) := by
  induction front with
  | nil => simp [explicit]
  | cons first rest ih =>
    cases rest with
    | nil => simp [explicit]
    | cons second rest =>
      simp only [List.cons_append, explicit] at ih ⊢
      rw [ih]
      simp only [List.append_assoc]

theorem gap_eq_nil_of_awaits {left right : Token} (awaits : left.awaitsOperand = true) :
    gap left right = [] := by
  simp [gap, meets, awaits]

theorem gap_eq_nil_of_binds {left right : Token} (binds : right.bindsLeft = true) :
    gap left right = [] := by
  simp [gap, meets, binds]

theorem gap_eq_marker {left right : Token} (complete : left.awaitsOperand = false)
    (starts : right.bindsLeft = false) : gap left right = [.connective .concat] := by
  simp [gap, meets, complete, starts]

end Token

open Token

theorem tokens_marked (lexemes : List Lexeme) :
    (marked lexemes).map (·.token) = explicit (lexemes.map (·.token)) := by
  fun_induction marked lexemes with
  | case1 => rfl
  | case2 => rfl
  | case3 first second rest joins ih =>
    simp only [List.map_cons, explicit, gap, joins] at ih ⊢
    rw [ih]
    rfl
  | case4 first second rest apart ih =>
    simp only [List.map_cons, explicit, gap, apart] at ih ⊢
    rw [ih]
    rfl

/-- What stands at a place of the grammar, in tokens and with concatenation written out. -/
inductive Written : Level → List Token → Expr → Prop where
  | literal {c : Char} : Written .atom [.literal c] (.literal c)
  | group {tokens : List Token} {e : Expr} :
      Written .union tokens e → Written .atom (.openGroup :: tokens ++ [.closeGroup]) e
  | atom {tokens : List Token} {e : Expr} : Written .atom tokens e → Written .repetition tokens e
  | quantified {tokens : List Token} {body : Expr} (how : Quantifier) :
      Written .repetition tokens body →
      Written .repetition (tokens ++ [.quantifier how]) (.repeated how body)
  | repetition {tokens : List Token} {e : Expr} :
      Written .repetition tokens e → Written .concat tokens e
  | concatenated {first second : List Token} {left right : Expr} :
      Written .concat first left → Written .repetition second right →
      Written .concat (first ++ .connective .concat :: second) (.joined .concat left right)
  | concat {tokens : List Token} {e : Expr} : Written .concat tokens e → Written .union tokens e
  | union {first second : List Token} {left right : Expr} :
      Written .union first left → Written .concat second right →
      Written .union (first ++ .connective .union :: second) (.joined .union left right)

theorem ofChar_toChar_quantifier (how : Quantifier) :
    ofChar (Token.quantifier how).toChar = .quantifier how := by
  cases how <;> decide

def Starts (tokens : List Token) : Prop :=
  ∃ first rest, tokens = first :: rest ∧ first.bindsLeft = false

def Stops (tokens : List Token) : Prop :=
  ∃ front last, tokens = front ++ [last] ∧ last.awaitsOperand = false

theorem Starts.append {tokens : List Token} (starts : Starts tokens) (more : List Token) :
    Starts (tokens ++ more) := by
  obtain ⟨first, rest, rfl, opens⟩ := starts
  exact ⟨first, rest ++ more, List.cons_append, opens⟩

theorem Stops.append {tokens : List Token} (stops : Stops tokens) (earlier : List Token) :
    Stops (earlier ++ tokens) := by
  obtain ⟨front, last, rfl, closes⟩ := stops
  exact ⟨earlier ++ front, last, (List.append_assoc _ _ _).symm, closes⟩

/-- Between an operand that stops and one that starts a marker is put in. -/
theorem explicit_append_operands {front back : List Token} (stops : Stops front)
    (starts : Starts back) :
    explicit (front ++ back) = explicit front ++ .connective .concat :: explicit back := by
  obtain ⟨earlier, left, rfl, complete⟩ := stops
  obtain ⟨right, later, rfl, opens⟩ := starts
  rw [List.append_assoc, List.singleton_append, explicit_append, gap_eq_marker complete opens,
    List.append_assoc, List.singleton_append]

theorem explicit_append_connective {front back : List Token} (how : Connective)
    (stops : Stops front) (starts : Starts back) :
    explicit (front ++ .connective how :: back) =
      explicit front ++ .connective how :: explicit back := by
  obtain ⟨earlier, left, rfl, _⟩ := stops
  obtain ⟨right, later, rfl, _⟩ := starts
  rw [List.append_assoc, List.singleton_append, explicit_append, gap_eq_nil_of_binds rfl,
    List.append_nil]
  change _ ++ (_ :: gap (.connective how) right ++ explicit (right :: later)) = _
  rw [gap_eq_nil_of_awaits rfl, List.singleton_append]

theorem explicit_append_quantifier {front : List Token} (how : Quantifier) (stops : Stops front) :
    explicit (front ++ [.quantifier how]) = explicit front ++ [.quantifier how] := by
  obtain ⟨earlier, left, rfl, _⟩ := stops
  rw [List.append_assoc, List.singleton_append, explicit_append, gap_eq_nil_of_binds rfl,
    List.append_nil]
  rfl

theorem explicit_group {tokens : List Token} (stops : Stops tokens) (starts : Starts tokens) :
    explicit (.openGroup :: tokens ++ [.closeGroup]) =
      .openGroup :: explicit tokens ++ [.closeGroup] := by
  obtain ⟨right, later, same, opens⟩ := starts
  have inside : explicit (.openGroup :: tokens) = .openGroup :: explicit tokens := by
    rw [same]
    change _ :: gap .openGroup right ++ explicit (right :: later) = _
    rw [gap_eq_nil_of_awaits rfl, List.singleton_append]
  obtain ⟨earlier, left, rfl, closes⟩ := stops
  rw [← List.cons_append, List.append_assoc, List.singleton_append, explicit_append,
    gap_eq_nil_of_binds rfl, List.append_nil, List.cons_append, inside]
  rfl

theorem Derives.starts {level : Level} {text : List Char} {e : Expr}
    (derives : Derives level text e) : Starts (text.map ofChar) := by
  induction derives with
  | literal free =>
    rw [List.map_singleton, ofChar_of_not_reserved free]
    exact ⟨_, [], rfl, rfl⟩
  | group _ _ => exact ⟨.openGroup, _, rfl, rfl⟩
  | atom _ ih => exact ih
  | quantified how _ ih =>
    rw [List.map_append]
    exact ih.append _
  | repetition _ ih => exact ih
  | implied _ _ ih _ =>
    rw [List.map_append]
    exact ih.append _
  | written _ _ ih _ =>
    rw [List.map_append]
    exact ih.append _
  | concat _ ih => exact ih
  | union _ _ ih _ =>
    rw [List.map_append]
    exact ih.append _

theorem Derives.stops {level : Level} {text : List Char} {e : Expr}
    (derives : Derives level text e) : Stops (text.map ofChar) := by
  induction derives with
  | literal free =>
    rw [List.map_singleton, ofChar_of_not_reserved free]
    exact ⟨[], _, rfl, rfl⟩
  | group _ _ =>
    rw [List.map_append]
    exact ⟨_, .closeGroup, rfl, rfl⟩
  | atom _ ih => exact ih
  | quantified how _ _ =>
    rw [List.map_append, List.map_singleton, ofChar_toChar_quantifier]
    exact ⟨_, .quantifier how, rfl, rfl⟩
  | repetition _ ih => exact ih
  | implied _ _ _ ih =>
    rw [List.map_append]
    exact ih.append _
  | written _ _ _ ih =>
    rw [List.map_append, List.map_cons, ← List.singleton_append, ← List.append_assoc]
    exact ih.append _
  | concat _ ih => exact ih
  | union _ _ _ ih =>
    rw [List.map_append, List.map_cons, ← List.singleton_append, ← List.append_assoc]
    exact ih.append _

/-- A text of the grammar is the same expression with its concatenations written out. -/
theorem Derives.written_explicit {level : Level} {text : List Char} {e : Expr}
    (derives : Derives level text e) : Written level (explicit (text.map ofChar)) e := by
  induction derives with
  | literal free =>
    rw [List.map_singleton, ofChar_of_not_reserved free]
    exact .literal
  | @group text e inner ih =>
    have tokens : ('(' :: text ++ [')']).map ofChar =
        .openGroup :: text.map ofChar ++ [.closeGroup] := by
      simp [ofChar, concatMarker]
    rw [tokens, explicit_group inner.stops inner.starts]
    exact .group ih
  | atom _ ih => exact .atom ih
  | quantified how body ih =>
    rw [List.map_append, List.map_singleton, ofChar_toChar_quantifier,
      explicit_append_quantifier how body.stops]
    exact .quantified how ih
  | repetition _ ih => exact .repetition ih
  -- the two ways to concatenate become one
  | implied one two left right =>
    rw [List.map_append, explicit_append_operands one.stops two.starts]
    exact .concatenated left right
  | written one two left right =>
    have marker : ofChar concatMarker = .connective .concat := by decide
    rw [List.map_append, List.map_cons, marker,
      explicit_append_connective .concat one.stops two.starts]
    exact .concatenated left right
  | concat _ ih => exact .concat ih
  | union one two left right =>
    have bar : ofChar '|' = .connective .union := by decide
    rw [List.map_append, List.map_cons, bar, explicit_append_connective .union one.stops two.starts]
    exact .union left right

end PatternAutomata
