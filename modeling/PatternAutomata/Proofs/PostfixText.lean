import PatternAutomata.Proofs.Precedence
import PatternAutomata.Proofs.Reading

/-! What the text of the postfix order says, and how it is read again.

For a pattern of the grammar the text lists its expression with every operator
behind its operands. For any pattern the tokens read from the text are those
that were written, so reading the text ends as reading the tokens does, and a
position in the pattern becomes a place in the text.
-/

set_option autoImplicit false

namespace PatternAutomata

open Token

variable {pattern : String} {read tokens first second out : List Lexeme} {e other : Expr}

/-! ## Patterns of the grammar -/

theorem Derives.unique (one : Derives .union pattern.toList e)
    (two : Derives .union pattern.toList other) : other = e := by
  obtain ⟨out, known, spelled⟩ := one.postfixOrder
  obtain ⟨again, known', spelled'⟩ := two.postfixOrder
  cases known.symm.trans known'
  have same := (Expr.ofPostfix_eq_some_iff.mpr spelled').symm.trans
    (Expr.ofPostfix_eq_some_iff.mpr spelled)
  simpa using same

/-- The text of a pattern of the grammar lists the one expression it means: literals stand for
themselves, each connective follows its operands whether it was written or implied, and no bracket
is left. -/
theorem postfixText_lists_expression (pattern : String) (e : Expr)
    (derives : Derives .union pattern.toList e) :
    postfixText pattern = .ok (String.ofList (e.postorder.map toChar)) ∧
      ∀ other, Derives .union pattern.toList other → other = e := by
  refine ⟨?_, fun other => derives.unique⟩
  obtain ⟨out, known, spelled⟩ := derives.postfixOrder
  rw [postfixText, known, ← spelled, List.map_map]
  rfl

theorem postfixText_lists_expression_group :
    Derives .union "a(b|c)".toList
        (.joined .concat (.literal 'a') (.joined .union (.literal 'b') (.literal 'c'))) ∧
      postfixText "a(b|c)" = .ok "abc|·" := by
  have a : Derives .concat ['a'] (.literal 'a') := .repetition (.atom (.literal (by decide)))
  have b : Derives .union ['b'] (.literal 'b') :=
    .concat (.repetition (.atom (.literal (by decide))))
  have c : Derives .concat ['c'] (.literal 'c') := .repetition (.atom (.literal (by decide)))
  have derives : Derives .union "a(b|c)".toList
      (.joined .concat (.literal 'a') (.joined .union (.literal 'b') (.literal 'c'))) :=
    .concat (.implied a (.atom (.group (.union b c))))
  exact ⟨derives, (postfixText_lists_expression _ _ derives).1⟩

/-! ## Reading the text again -/

theorem position_of_lexemes {text : String} {place : Nat} {lexeme : Lexeme}
    (known : (lexemes text)[place]? = some lexeme) : lexeme.position = place := by
  simp only [lexemes, List.getElem?_map, List.getElem?_zipIdx, Option.map_map, Nat.zero_add,
    Option.map_eq_some_iff, Function.comp_apply] at known
  obtain ⟨c, _, rfl⟩ := known
  rfl

def Token.Plain (token : Token) : Prop := ofChar token.toChar = token

theorem plain_ofChar (c : Char) : (ofChar c).Plain := by
  rw [Plain, toChar_ofChar]

theorem plain_of_mem_lexemes {text : String} : ∀ lexeme ∈ lexemes text, lexeme.token.Plain := by
  intro lexeme member
  obtain ⟨⟨c, place⟩, _, rfl⟩ := List.mem_map.mp member
  exact plain_ofChar c

theorem mem_marked : ∀ lexeme ∈ marked read, lexeme ∈ read ∨
    lexeme.token = .connective .concat ∧
      ∃ next ∈ read, lexeme.position = next.position ∧ next.token.bindsLeft = false := by
  fun_induction marked read with
  | case1 => simp
  | case2 last =>
    intro lexeme member
    exact Or.inl member
  | case3 left right rest joins ih =>
    intro lexeme member
    rcases List.mem_cons.mp member with rfl | member
    · exact Or.inl List.mem_cons_self
    rcases List.mem_cons.mp member with rfl | member
    · simp only [meets, Bool.and_eq_true, Bool.not_eq_eq_eq_not, Bool.not_true] at joins
      exact Or.inr ⟨rfl, right, by simp, rfl, joins.2⟩
    · rcases ih lexeme member with old | ⟨marker, next, later, place⟩
      · exact Or.inl (List.mem_cons_of_mem _ old)
      · exact Or.inr ⟨marker, next, List.mem_cons_of_mem _ later, place⟩
  | case4 left right rest apart ih =>
    intro lexeme member
    rcases List.mem_cons.mp member with rfl | member
    · exact Or.inl List.mem_cons_self
    · rcases ih lexeme member with old | ⟨marker, next, later, place⟩
      · exact Or.inl (List.mem_cons_of_mem _ old)
      · exact Or.inr ⟨marker, next, List.mem_cons_of_mem _ later, place⟩

theorem mem_marked_of_postfixOrder (known : postfixOrder pattern = .ok out) :
    ∀ lexeme ∈ out, lexeme ∈ marked (lexemes pattern) ∧ lexeme.token.isBracket = false := by
  intro lexeme member
  have kept := (postfix_perm known).mem_iff.mp member
  simpa [unbracketed] using kept

theorem plain_of_mem_marked : ∀ lexeme ∈ marked (lexemes pattern), lexeme.token.Plain := by
  intro lexeme member
  rcases mem_marked lexeme member with old | ⟨marker, _⟩
  · exact plain_of_mem_lexemes lexeme old
  · rw [marker]
    exact plain_ofChar concatMarker

theorem plain_of_postfixOrder (known : postfixOrder pattern = .ok out) :
    ∀ lexeme ∈ out, lexeme.token.Plain := fun lexeme member =>
  plain_of_mem_marked lexeme (mem_marked_of_postfixOrder known lexeme member).1

theorem tokens_spelling (plain : ∀ lexeme ∈ tokens, lexeme.token.Plain) :
    (lexemes (spelling tokens)).map (·.token) = tokens.map (·.token) := by
  rw [tokens_lexemes, spelling, String.toList_ofList, List.map_map]
  exact List.map_congr_left plain

/-! ## Readings that differ in positions only -/

def Token.refusal : Token → Fault
  | .openGroup | .closeGroup => .bracketInPostfix
  | token => .missingOperand token

namespace Expr

variable {stack after : List Expr} {one two : Lexeme}

theorem push_eq_error {diagnostic : Diagnostic} (known : push stack one = .error diagnostic) :
    diagnostic = ⟨one.token.refusal, some one.position⟩ := by
  cases token : one.token with
  | literal c =>
    rw [push_literal token] at known
    cases known
  | openGroup =>
    simp only [push, token] at known
    cases known
    rfl
  | closeGroup =>
    simp only [push, token] at known
    cases known
    rfl
  | quantifier how =>
    cases stack with
    | nil =>
      simp only [push, token] at known
      cases known
      rfl
    | cons body rest =>
      rw [push_quantifier token] at known
      cases known
  | connective how =>
    rcases stack with _ | ⟨right, _ | ⟨left, rest⟩⟩
    -- with fewer than two expressions on hand an operator is refused
    · simp only [push, token] at known
      cases known
      rfl
    · simp only [push, token] at known
      cases known
      rfl
    · rw [push_connective token] at known
      cases known

theorem push_eq_ok_of_token (same : one.token = two.token) (known : push stack one = .ok after) :
    push stack two = .ok after := by
  rcases push_eq_ok known with ⟨c, token, rfl⟩ | ⟨how, right, left, rest, token, rfl, rfl⟩ |
    ⟨how, body, rest, token, rfl, rfl⟩
  · exact push_literal (same ▸ token)
  · exact push_connective (same ▸ token)
  · exact push_quantifier (same ▸ token)

end Expr

/-- Two readings end alike: with the same result, or where they are refused, at tokens that stand
at the same place of both lists. -/
inductive Parallel {α : Type} (first second : List Lexeme) :
    Except Diagnostic α → Except Diagnostic α → Prop where
  | ok (a : α) : Parallel first second (.ok a) (.ok a)
  | refused {place : Nat} {one two : Lexeme} :
      first[place]? = some one → second[place]? = some two → one.token = two.token →
      Parallel first second (.error ⟨one.token.refusal, some one.position⟩)
        (.error ⟨two.token.refusal, some two.position⟩)
  | unplaced (fault : Fault) :
      Parallel first second (.error { fault }) (.error { fault })

namespace Parallel

variable {α β : Type} {left right : Except Diagnostic α} {one two : Lexeme}

theorem cons (parallel : Parallel first second left right) :
    Parallel (one :: first) (two :: second) left right := by
  cases parallel with
  | ok a => exact .ok a
  | @refused place _ _ here there same =>
    have next : (one :: first)[place + 1]? = some _ := here
    exact .refused next there same
  | unplaced fault => exact .unplaced fault

theorem bind {f : α → Except Diagnostic β} (parallel : Parallel first second left right)
    (alike : ∀ a, Parallel first second (f a) (f a)) :
    Parallel first second (left >>= f) (right >>= f) := by
  cases parallel with
  | ok a => exact alike a
  | refused here there same => exact .refused here there same
  | unplaced fault => exact .unplaced fault

theorem map (f : α → β) (parallel : Parallel first second left right) :
    Parallel first second (f <$> left) (f <$> right) := by
  cases parallel with
  | ok a => exact .ok (f a)
  | refused here there same => exact .refused here there same
  | unplaced fault => exact .unplaced fault

theorem finish (stack : List Expr) :
    Parallel first second (Expr.finish stack) (Expr.finish stack) := by
  match stack with
  | [] => exact .ok none
  | [whole] => exact .ok (some whole)
  | _ :: _ :: rest => exact .unplaced _

/-- Tokens that are the same one after another are read alike, whatever their positions. -/
theorem foldlM_push (same : first.map (·.token) = second.map (·.token)) (stack : List Expr) :
    Parallel first second (first.foldlM Expr.push stack) (second.foldlM Expr.push stack) := by
  induction first generalizing second stack with
  | nil =>
    cases List.map_eq_nil_iff.mp same.symm
    exact .ok stack
  | cons one rest ih =>
    obtain ⟨two, others, rfl, token, later⟩ := List.map_eq_cons_iff.mp same.symm
    rw [List.foldlM_cons, List.foldlM_cons]
    cases pushed : Expr.push stack one with
    | ok after =>
      rw [Expr.push_eq_ok_of_token token.symm pushed]
      exact (ih later.symm after).cons
    | error diagnostic =>
      cases again : Expr.push stack two with
      | ok after =>
        cases pushed.symm.trans (Expr.push_eq_ok_of_token token again)
      | error other =>
        rw [Expr.push_eq_error pushed, Expr.push_eq_error again]
        have here : (one :: rest)[0]? = some one := rfl
        exact .refused here rfl token.symm

theorem build (same : first.map (·.token) = second.map (·.token)) :
    Parallel first second (build first) (build second) :=
  ((foldlM_push same []).bind finish).map _

end Parallel

/-! ## Two stages and one -/

/-- Of two tokens the first stands further left, or is a marker in front of the second. -/
def Lexeme.Before (one two : Lexeme) : Prop :=
  one.position < two.position ∨ one.position = two.position ∧ one.token = .connective .concat ∧
    two.token ≠ .connective .concat

theorem Lexeme.Before.ne {one two : Lexeme} (before : one.Before two) : one ≠ two := by
  rintro rfl
  rcases before with less | ⟨_, marker, other⟩
  · exact Nat.lt_irrefl _ less
  · exact other marker

theorem position_of_mem_marked :
    ∀ lexeme ∈ marked read, ∃ old ∈ read, lexeme.position = old.position := by
  intro lexeme member
  rcases mem_marked lexeme member with old | ⟨_, next, old, place, _⟩
  · exact ⟨lexeme, old, rfl⟩
  · exact ⟨next, old, place⟩

theorem exists_marked_cons (head : Lexeme) (rest : List Lexeme) :
    ∃ tail, marked (head :: rest) = head :: tail ∧
      ∀ lexeme ∈ tail, ∃ old ∈ rest, lexeme.position = old.position := by
  cases rest with
  | nil => exact ⟨[], rfl, List.forall_mem_nil _⟩
  | cons next rest =>
    by_cases joins : head.token.meets next.token = true
    · refine ⟨_, if_pos joins, List.forall_mem_cons.mpr ⟨?_, position_of_mem_marked⟩⟩
      exact ⟨next, List.mem_cons_self, rfl⟩
    · exact ⟨_, if_neg joins, position_of_mem_marked⟩

theorem pairwise_marked (ordered : read.Pairwise (·.position < ·.position)) :
    (marked read).Pairwise Lexeme.Before := by
  fun_induction marked read with
  | case1 => exact .nil
  | case2 last => exact List.pairwise_singleton _ _
  | case3 left right rest joins ih =>
    obtain ⟨first, later⟩ := List.pairwise_cons.mp ordered
    obtain ⟨second, _⟩ := List.pairwise_cons.mp later
    simp only [meets, Bool.and_eq_true, Bool.not_eq_eq_eq_not, Bool.not_true] at joins
    refine .cons (List.forall_mem_cons.mpr ⟨?_, ?_⟩) (.cons ?_ (ih later))
    · exact Or.inl (first right List.mem_cons_self)
    · intro lexeme member
      obtain ⟨old, place, same⟩ := position_of_mem_marked lexeme member
      exact Or.inl (same ▸ first old place)
    -- the marker shares the position of the token behind it, which is no marker
    · obtain ⟨tail, shape, places⟩ := exists_marked_cons right rest
      rw [shape]
      refine List.forall_mem_cons.mpr ⟨Or.inr ⟨rfl, rfl, ?_⟩, ?_⟩
      · intro marker
        simp [marker, bindsLeft] at joins
      · intro lexeme member
        obtain ⟨old, place, same⟩ := places lexeme member
        exact Or.inl (same ▸ second old place)
  | case4 left right rest apart ih =>
    obtain ⟨first, later⟩ := List.pairwise_cons.mp ordered
    refine .cons ?_ (ih later)
    intro lexeme member
    obtain ⟨old, place, same⟩ := position_of_mem_marked lexeme member
    exact Or.inl (same ▸ first old place)

theorem pairwise_lexemes (text : String) : (lexemes text).Pairwise (·.position < ·.position) := by
  rw [List.pairwise_iff_getElem]
  intro place behind inside within less
  rwa [position_of_lexemes (List.getElem?_eq_getElem inside),
    position_of_lexemes (List.getElem?_eq_getElem within)]

theorem nodup_of_postfixOrder (known : postfixOrder pattern = .ok out) : out.Nodup := by
  have marks : (marked (lexemes pattern)).Nodup :=
    (pairwise_marked (pairwise_lexemes pattern)).imp Lexeme.Before.ne
  exact (postfix_perm known).nodup_iff.mpr (marks.filter _)

theorem refusal_of_not_isBracket {token : Token} (free : token.isBracket = false) :
    token.refusal = .missingOperand token := by
  cases token <;> first | rfl | cases free

namespace Parallel

variable {α : Type} {text : String} {left right : Except Diagnostic α} {fault : Fault}
  {place : Nat} {lexeme : Lexeme}

theorem ok_iff (parallel : Parallel first second left right) {a : α} :
    left = .ok a ↔ right = .ok a := by
  cases parallel <;> simp

theorem unplaced_iff (parallel : Parallel first second left right) :
    left = .error { fault } ↔ right = .error { fault } := by
  cases parallel <;> simp

theorem exists_place {position : Nat} (parallel : Parallel out (lexemes text) left right)
    (refused : left = .error ⟨fault, some position⟩) :
    ∃ place lexeme, out[place]? = some lexeme ∧ lexeme.position = position ∧
      right = .error ⟨fault, some place⟩ := by
  cases parallel with
  | ok a => cases refused
  | unplaced fault => cases refused
  | @refused place one two here there same =>
    cases refused
    refine ⟨place, one, here, rfl, ?_⟩
    rw [position_of_lexemes there, same]

/-- The position of the refused token and the token itself tell its place. -/
theorem refused_iff (parallel : Parallel out (lexemes text) left right) (distinct : out.Nodup)
    (free : ∀ lexeme ∈ out, lexeme.token.isBracket = false) (here : out[place]? = some lexeme) :
    right = .error ⟨fault, some place⟩ ↔
      left = .error ⟨fault, some lexeme.position⟩ ∧ fault = .missingOperand lexeme.token := by
  cases parallel with
  | ok a => simp
  | unplaced fault => simp
  | @refused spot one two found there same =>
    have operator := refusal_of_not_isBracket (free one (List.mem_of_getElem? found))
    rw [position_of_lexemes there, ← same, operator]
    constructor
    · intro failed
      cases failed
      cases found.symm.trans here
      exact ⟨rfl, rfl⟩
    · intro ⟨failed, named⟩
      obtain ⟨equal, beside⟩ : fault = .missingOperand one.token ∧ one.position = lexeme.position := by
        simpa [eq_comm] using failed
      have alike : one = lexeme := by
        cases one
        cases lexeme
        simp_all
      have inside := (List.getElem?_eq_some_iff.mp found).1
      cases (List.getElem?_inj inside distinct).mp (found.trans (alike ▸ here.symm))
      rw [equal]

end Parallel

theorem parallel_compile (known : postfixOrder pattern = .ok out) :
    Parallel out (lexemes (spelling out)) (compile pattern) (compilePostfix (spelling out)) := by
  have direct : compile pattern = build out := by
    rw [compile, known]
    rfl
  rw [direct, compilePostfix]
  exact .build (tokens_spelling (plain_of_postfixOrder known)).symm

theorem postfixText_eq_ok_iff {text : String} :
    postfixText pattern = .ok text ↔ ∃ out, postfixOrder pattern = .ok out ∧ spelling out = text :=
  map_eq_ok_iff

theorem compile_of_postfixText_error {diagnostic : Diagnostic}
    (failed : postfixText pattern = .error diagnostic) : compile pattern = .error diagnostic := by
  rw [postfixText] at failed
  rw [compile]
  cases known : postfixOrder pattern with
  | ok out => simp [known] at failed
  | error other => simpa [known, bind, Except.bind] using failed

/-- Compiling in one stage and in two gives the same automaton, or fails with the same fault. A
place in the text is blamed just if its token is the one that the fault names, and the pattern is
blamed at the position of that token. What has no postfix order fails at once. -/
theorem compile_in_two_stages (pattern : String) :
    (∀ text, postfixText pattern = .ok text →
      ∃ out, postfixOrder pattern = .ok out ∧
        (∀ automaton, compile pattern = .ok automaton ↔ compilePostfix text = .ok automaton) ∧
        (∀ fault place lexeme, out[place]? = some lexeme →
          (compilePostfix text = .error ⟨fault, some place⟩ ↔
            compile pattern = .error ⟨fault, some lexeme.position⟩ ∧
              fault = .missingOperand lexeme.token)) ∧
        (∀ fault position, compile pattern = .error ⟨fault, some position⟩ →
          ∃ place lexeme, out[place]? = some lexeme ∧ lexeme.position = position ∧
            compilePostfix text = .error ⟨fault, some place⟩) ∧
        ∀ fault, compile pattern = .error { fault } ↔ compilePostfix text = .error { fault }) ∧
      ∀ diagnostic, postfixText pattern = .error diagnostic → compile pattern = .error diagnostic := by
  refine ⟨fun text written => ?_, fun diagnostic => compile_of_postfixText_error⟩
  obtain ⟨out, known, rfl⟩ := postfixText_eq_ok_iff.mp written
  have parallel := parallel_compile known
  have free := fun lexeme member => (mem_marked_of_postfixOrder known lexeme member).2
  refine ⟨out, known, fun automaton => parallel.ok_iff, ?_, ?_, fun fault => parallel.unplaced_iff⟩
  · intro fault place lexeme here
    exact parallel.refused_iff (nodup_of_postfixOrder known) free here
  · intro fault position refused
    exact parallel.exists_place refused

theorem compile_in_two_stages_missing_operand :
    postfixText "(ab)|" = .ok "ab·|" ∧
      compilePostfix "ab·|" = .error ⟨.missingOperand (.connective .union), some 3⟩ ∧
      compile "(ab)|" = .error ⟨.missingOperand (.connective .union), some 4⟩ := by
  have text : postfixText "(ab)|" = .ok "ab·|" := rfl
  have order : postfixOrder "(ab)|" = .ok [⟨1, .literal 'a'⟩, ⟨2, .literal 'b'⟩,
      ⟨2, .connective .concat⟩, ⟨4, .connective .union⟩] := rfl
  have refused : compilePostfix "ab·|" = .error ⟨.missingOperand (.connective .union), some 3⟩ := rfl
  obtain ⟨out, known, _, places, _⟩ := (compile_in_two_stages "(ab)|").1 _ text
  cases order.symm.trans known
  exact ⟨text, refused, ((places _ 3 ⟨4, .connective .union⟩ rfl).mp refused).1⟩

/-- A marker and the token behind it share a position, so a position alone does not tell which of
them is blamed. -/
theorem shared_position_is_ambiguous :
    postfixText "()a" = .ok "a·" ∧
      postfixOrder "()a" = .ok [⟨2, .literal 'a'⟩, ⟨2, .connective .concat⟩] ∧
      ¬(compilePostfix "a·" = .error ⟨.missingOperand (.connective .concat), some 0⟩ ↔
        compile "()a" = .error ⟨.missingOperand (.connective .concat), some 2⟩) := by
  have later : compilePostfix "a·" = .error ⟨.missingOperand (.connective .concat), some 1⟩ := rfl
  have refused : compile "()a" = .error ⟨.missingOperand (.connective .concat), some 2⟩ := rfl
  refine ⟨rfl, rfl, fun same => ?_⟩
  cases later.symm.trans (same.mpr refused)

end PatternAutomata
