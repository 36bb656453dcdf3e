import PatternAutomata.Matcher
import PatternAutomata.Proofs.LanguageOperations
import PatternAutomata.Proofs.Parsing

/-! Which patterns compile, and what the automata accept.

A pattern compiles when it is in the grammar, and then its automaton accepts
the language of its expression. Apart from that only brackets around nothing
compile, the empty pattern included, and they accept the empty text alone.
-/

set_option autoImplicit false

namespace PatternAutomata

open Token

variable {pattern : String} {out : List Lexeme} {automaton : Nfa} {e : Expr} {depth : Nat}

def nested (depth : Nat) : List Char := List.replicate depth '(' ++ List.replicate depth ')'

theorem tokens_nested (depth : Nat) :
    (nested depth).map ofChar =
      List.replicate depth .openGroup ++ List.replicate depth .closeGroup := by
  rw [nested, List.map_append, List.map_replicate, List.map_replicate]
  rfl

theorem eq_nested_of_tokens {text : List Char}
    (same : text.map ofChar =
      List.replicate depth .openGroup ++ List.replicate depth .closeGroup) :
    text = nested depth := by
  have injective : Function.Injective ofChar := fun _ _ => ofChar_inj.mp
  exact List.map_injective_iff.mpr injective (same.trans (tokens_nested depth).symm)

theorem tokens_marked_lexemes (pattern : String) :
    (marked (lexemes pattern)).map (·.token) = explicit (pattern.toList.map ofChar) := by
  rw [tokens_marked, tokens_lexemes]

theorem postfixOrder_isOk_iff :
    (∃ out, postfixOrder pattern = .ok out) ↔ nests 0 (pattern.toList.map ofChar) = true := by
  rw [← nests_explicit, ← tokens_marked_lexemes]
  exact reorder_isOk_iff

/-- An operator without operands is never moved to a place where it finds some. -/
theorem fits_of_postorder (known : postfixOrder pattern = .ok out)
    (spelled : out.map (·.token) = e.postorder) :
    List.IsChain Fits (.openGroup :: pattern.toList.map ofChar ++ [.closeGroup]) := by
  have literals : operands (pattern.toList.map ofChar) = operands e.postorder := by
    rw [← spelled, operands_reordered known, tokens_marked_lexemes, operands_explicit]
  have operators : connectives (explicit (pattern.toList.map ofChar)) =
      connectives e.postorder := by
    rw [← spelled, connectives_reordered known, tokens_marked_lexemes]
  apply isChain_of_operands
  rw [literals, operators, e.operands_postorder]

theorem eq_nested_of_postfixOrder (known : postfixOrder pattern = .ok []) :
    ∃ depth, pattern.toList = nested depth := by
  have balanced := postfixOrder_isOk_iff.mp ⟨[], known⟩
  have brackets := (postfix_eq_nil_iff known).mp rfl
  rw [tokens_marked_lexemes] at brackets
  obtain ⟨depth, same⟩ := eq_replicate_of_nests brackets balanced
  exact ⟨depth, eq_nested_of_tokens same⟩

theorem postfixOrder_nested (same : pattern.toList = nested depth) : postfixOrder pattern = .ok [] := by
  have tokens : (marked (lexemes pattern)).map (·.token) =
      List.replicate depth .openGroup ++ List.replicate depth .closeGroup := by
    rw [tokens_marked_lexemes, same, tokens_nested, explicit_replicate]
  have balanced : nests 0 (pattern.toList.map ofChar) = true := by
    rw [same, tokens_nested, nests_replicate_openGroup, Nat.zero_add, nests_replicate_closeGroup]
  obtain ⟨out, known⟩ := postfixOrder_isOk_iff.mpr balanced
  obtain rfl : out = [] := by
    rw [postfix_eq_nil_iff known, tokens]
    intro token member
    obtain opened | closed := List.mem_append.mp member
    · rw [List.eq_of_mem_replicate opened]
      rfl
    · rw [List.eq_of_mem_replicate closed]
      rfl
  exact known

theorem compile_nested (same : pattern.toList = nested depth) : compile pattern = .ok .empty :=
  compile_eq_ok_iff.mpr ⟨[], postfixOrder_nested same, build_eq_ok_iff.mpr (.inl ⟨rfl, rfl⟩)⟩

theorem Derives.compile (derives : Derives .union pattern.toList e) :
    compile pattern = .ok e.toNfa := by
  obtain ⟨out, known, spelled⟩ := derives.postfixOrder
  exact compile_eq_ok_iff.mpr ⟨out, known, build_eq_ok_iff.mpr (.inr ⟨e, spelled, rfl⟩)⟩

/-- What compiles is brackets around nothing, or a pattern of the grammar. -/
theorem compile_eq_ok_cases (known : compile pattern = .ok automaton) :
    (∃ depth, pattern.toList = nested depth ∧ automaton = .empty) ∨
      ∃ e, Derives .union pattern.toList e ∧ automaton = e.toNfa := by
  obtain ⟨out, ordered, built⟩ := compile_eq_ok_iff.mp known
  rcases build_eq_ok_iff.mp built with ⟨rfl, rfl⟩ | ⟨_, spelled, _⟩
  · obtain ⟨depth, same⟩ := eq_nested_of_postfixOrder ordered
    exact .inl ⟨depth, same, rfl⟩
  · have balanced := postfixOrder_isOk_iff.mp ⟨out, ordered⟩
    obtain ⟨e, derives⟩ := exists_derives (fits_of_postorder ordered spelled) balanced
    exact .inr ⟨e, derives, Except.ok.inj (known.symm.trans derives.compile)⟩

/-! ## Literals -/

theorem mem_reserved_of_nested (same : pattern.toList = nested depth) :
    ∀ c ∈ pattern.toList, c ∈ reserved := by
  intro c member
  rw [same, nested, List.mem_append] at member
  rcases member with opened | closed
  · rw [List.eq_of_mem_replicate opened]
    decide
  · rw [List.eq_of_mem_replicate closed]
    decide

theorem Derives.exists_literal {level : Level} {text : List Char} (derives : Derives level text e) :
    ∃ c ∈ text, c ∉ reserved := by
  -- every text of the grammar begins with a shorter one, or with a bracket before one
  induction derives with
  | literal free => exact ⟨_, List.mem_singleton_self _, free⟩
  | group _ ih => exact ih.imp fun c => And.imp_left fun member => by simp [member]
  | atom _ ih => exact ih
  | quantified _ _ ih => exact ih.imp fun _ => And.imp_left (List.mem_append_left _)
  | repetition _ ih => exact ih
  | implied _ _ ih _ => exact ih.imp fun _ => And.imp_left (List.mem_append_left _)
  | written _ _ ih _ => exact ih.imp fun _ => And.imp_left (List.mem_append_left _)
  | concat _ ih => exact ih
  | union _ _ ih _ => exact ih.imp fun _ => And.imp_left (List.mem_append_left _)

theorem derives_of_literal (known : compile pattern = .ok automaton)
    (literal : ∃ c ∈ pattern.toList, c ∉ reserved) :
    ∃ e, Derives .union pattern.toList e ∧ automaton = e.toNfa := by
  rcases compile_eq_ok_cases known with ⟨depth, same, _⟩ | derived
  · obtain ⟨c, member, free⟩ := literal
    exact absurd (mem_reserved_of_nested same c member) free
  · exact derived

theorem eq_nested_of_reserved (known : compile pattern = .ok automaton)
    (bare : ∀ c ∈ pattern.toList, c ∈ reserved) :
    ∃ depth, pattern.toList = nested depth ∧ automaton = .empty := by
  rcases compile_eq_ok_cases known with empty | ⟨e, derives, _⟩
  · exact empty
  · obtain ⟨c, member, free⟩ := derives.exists_literal
    exact absurd (bare c member) free

/-! ## What a compiled pattern accepts -/

/-- The pattern compiles, and each way to run its automaton accepts just the language. -/
def Recognizes (pattern : String) (language : Language Char) : Prop :=
  ∃ matcher, Matcher.ofPattern pattern = .ok matcher ∧ compile pattern = .ok matcher.automaton ∧
    ∀ text : String, (matcher.automaton.accepts text = true ↔ text.toList ∈ language) ∧
      (matcher.isMatch text = true ↔ text.toList ∈ language)

theorem recognizes_of_compile (known : compile pattern = .ok automaton) :
    Recognizes pattern automaton.language := by
  refine ⟨⟨pattern, automaton⟩, by rw [Matcher.ofPattern, known]; rfl, known, fun text => ?_⟩
  rw [Matcher.isMatch, Nfa.mem_language, String.ofList_toList]
  exact ⟨Iff.rfl, Iff.rfl⟩

/-- A pattern of the grammar accepts the language of its expression, and brackets around nothing
accept the empty text. -/
theorem compile_recognizes_grammar (pattern : String) :
    (∀ e, Derives .union pattern.toList e → Recognizes pattern e.language) ∧
      ∀ depth, pattern.toList = nested depth → Recognizes pattern 1 := by
  constructor
  · intro e derives
    rw [← e.language_toNfa]
    exact recognizes_of_compile derives.compile
  · intro depth same
    rw [← Nfa.language_empty]
    exact recognizes_of_compile (compile_nested same)

theorem compile_recognizes_grammar_union :
    Recognizes "a|b" (Expr.joined .union (.literal 'a') (.literal 'b')).language ∧
      Recognizes "(())" 1 := by
  constructor
  · refine (compile_recognizes_grammar "a|b").1 _ ?_
    have first : Derives .union ['a'] (.literal 'a') :=
      .concat (.repetition (.atom (.literal (by decide))))
    have second : Derives .concat ['b'] (.literal 'b') :=
      .repetition (.atom (.literal (by decide)))
    exact .union first second
  · exact (compile_recognizes_grammar "(())").2 2 rfl

/-! ## What compiles -/

/-- Just the patterns of the grammar compile, and brackets around nothing. Whatever is emitted, no
operator has been moved from a place where it lacks an operand to one where it finds some. -/
theorem compile_isOk_iff_grammar (pattern : String) :
    ((∃ automaton, compile pattern = .ok automaton) ↔
      pattern = "" ∨ (∃ depth, 1 ≤ depth ∧ pattern.toList = nested depth) ∨
        ∃ e, Derives .union pattern.toList e) ∧
      ∀ out automaton, postfixOrder pattern = .ok out → build out = .ok automaton →
        (∃ depth, pattern.toList = nested depth) ∨
          List.IsChain Fits (.openGroup :: pattern.toList.map ofChar ++ [.closeGroup]) := by
  have shape (out : List Lexeme) (automaton : Nfa) (known : postfixOrder pattern = .ok out)
      (built : build out = .ok automaton) :
      (∃ depth, pattern.toList = nested depth) ∨
        List.IsChain Fits (.openGroup :: pattern.toList.map ofChar ++ [.closeGroup]) := by
    obtain ⟨rfl, _⟩ | ⟨e, spelled, _⟩ := build_eq_ok_iff.mp built
    · exact .inl (eq_nested_of_postfixOrder known)
    · exact .inr (fits_of_postorder known spelled)
  refine ⟨⟨?_, ?_⟩, shape⟩
  · intro ⟨automaton, compiled⟩
    obtain ⟨out, known, built⟩ := compile_eq_ok_iff.mp compiled
    obtain ⟨depth, same⟩ | fits := shape out automaton known built
    · cases depth with
      | zero => exact .inl (String.toList_eq_nil_iff.mp same)
      | succ depth => exact .inr (.inl ⟨depth + 1, Nat.le_add_left .., same⟩)
    · exact .inr (.inr (exists_derives fits (postfixOrder_isOk_iff.mp ⟨out, known⟩)))
  · intro form
    obtain rfl | ⟨depth, _, same⟩ | ⟨e, derives⟩ := form
    · have empty : "".toList = nested 0 := rfl
      exact ⟨_, compile_nested empty⟩
    · exact ⟨_, compile_nested same⟩
    · exact ⟨_, derives.compile⟩

theorem compile_isOk_iff_grammar_nested :
    (∃ automaton, compile "()" = .ok automaton) ∧
      (∃ automaton, compile "a|b*" = .ok automaton) ∧
      List.IsChain Fits (.openGroup :: "a|b*".toList.map ofChar ++ [.closeGroup]) := by
  have a : Derives .concat ['a'] (.literal 'a') := .repetition (.atom (.literal (by decide)))
  have b : Derives .repetition ['b'] (.literal 'b') := .atom (.literal (by decide))
  have derives : Derives .union "a|b*".toList _ :=
    .union (.concat a) (.repetition (.quantified .star b))
  obtain ⟨forms, moves⟩ := compile_isOk_iff_grammar "a|b*"
  obtain ⟨automaton, known⟩ := forms.mpr (.inr (.inr ⟨_, derives⟩))
  obtain ⟨out, ordered, built⟩ := compile_eq_ok_iff.mp known
  refine ⟨(compile_isOk_iff_grammar "()").1.mpr (.inr (.inl ⟨1, Nat.le_refl 1, rfl⟩)),
    ⟨automaton, known⟩, (moves out automaton ordered built).resolve_left ?_⟩
  rintro ⟨depth, same⟩
  exact absurd (mem_reserved_of_nested same 'a' (by decide)) (by decide)

end PatternAutomata
