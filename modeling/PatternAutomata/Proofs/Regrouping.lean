import PatternAutomata.Proofs.Recovery

/-! Concatenations regrouped.

However three automata are grouped, concatenating them gives the same states and
the same edges in the same order. So do texts that put the two markers behind
their operands at different places.
-/

set_option autoImplicit false

namespace PatternAutomata

open Token

variable {text other : String} {automaton : Nfa} {e f : Expr}

/-! ## Texts with operators behind their operands -/

theorem compilePostfix_eq_ok_iff :
    compilePostfix text = .ok automaton ↔
      text = "" ∧ automaton = .empty ∨
        ∃ e : Expr, text.toList.map ofChar = e.postorder ∧ automaton = e.toNfa := by
  have blank : lexemes text = [] ↔ text = "" := by simp [lexemes]
  rw [compilePostfix, build_eq_ok_iff, tokens_lexemes, blank]

theorem compilePostfix_postorder (listed : text.toList.map ofChar = e.postorder) :
    compilePostfix text = .ok e.toNfa :=
  compilePostfix_eq_ok_iff.mpr (.inr ⟨e, listed, rfl⟩)

theorem eq_empty_iff_of_compilePostfix (known : compilePostfix text = .ok automaton) :
    automaton = .empty ↔ text = "" := by
  rcases compilePostfix_eq_ok_iff.mp known with ⟨blank, nothing⟩ | ⟨e, listed, rfl⟩
  · exact iff_of_true nothing blank
  · have more := e.two_le_size
    refine iff_of_false (fun nothing => ?_) (fun blank => ?_)
    · rw [nothing] at more
      exact absurd more (by decide)
    · have literals := e.operands_postorder
      rw [← listed, blank] at literals
      cases literals

theorem exists_postorder_of_compilePostfix (known : compilePostfix text = .ok automaton)
    (occupied : automaton ≠ .empty) :
    ∃ e : Expr, text.toList.map ofChar = e.postorder ∧ automaton = e.toNfa :=
  (compilePostfix_eq_ok_iff.mp known).resolve_left fun nothing => occupied nothing.2

theorem postorder_concat (one : text.toList.map ofChar = e.postorder)
    (two : other.toList.map ofChar = f.postorder) :
    (text ++ other ++ "·").toList.map ofChar = (Expr.joined .concat e f).postorder := by
  have marker : "·".toList = [concatMarker] := rfl
  have operator : ofChar concatMarker = connective .concat := by decide
  simp only [String.toList_append, marker, List.map_append, List.map_singleton, one, two, operator,
    Expr.postorder]

/-- Grouping makes no difference to a concatenation of automata: states, flags and edges are the
same, each in the same place. So of three texts that compile, the first two may be concatenated
first or the last two. -/
theorem concatenation_regroups :
    (∀ first second third : Nfa, first.WellFormed → second.WellFormed → third.WellFormed →
      (first.concat second).concat third = first.concat (second.concat third)) ∧
    (∀ text automaton, compilePostfix text = .ok automaton → (automaton = .empty ↔ text = "")) ∧
    ∀ (u v w : String) (first second third : Nfa),
      compilePostfix u = .ok first → first ≠ .empty →
      compilePostfix v = .ok second → second ≠ .empty →
      compilePostfix w = .ok third → third ≠ .empty →
      compilePostfix (u ++ v ++ "·" ++ w ++ "·") = compilePostfix (u ++ v ++ w ++ "·" ++ "·") ∧
        compilePostfix (u ++ v ++ "·" ++ w ++ "·") = .ok ((first.concat second).concat third) := by
  refine ⟨fun first second third => Nfa.concat_assoc, fun text automaton =>
    eq_empty_iff_of_compilePostfix, ?_⟩
  intro u v w first second third one occupied two filled three left
  obtain ⟨e, early, rfl⟩ := exists_postorder_of_compilePostfix one occupied
  obtain ⟨f, middle, rfl⟩ := exists_postorder_of_compilePostfix two filled
  obtain ⟨g, late, rfl⟩ := exists_postorder_of_compilePostfix three left
  have before := postorder_concat (postorder_concat early middle) late
  have behind := postorder_concat early (postorder_concat middle late)
  have spelled : u ++ v ++ w ++ "·" ++ "·" = u ++ (v ++ w ++ "·") ++ "·" := by
    simp only [String.append_assoc]
  rw [spelled, compilePostfix_postorder before, compilePostfix_postorder behind]
  simp only [Expr.toNfa, Nfa.joined,
    Nfa.concat_assoc e.wellFormed_toNfa f.wellFormed_toNfa g.wellFormed_toNfa, and_self]

/-- The accept state of the first automaton has an edge of its own, and the second has one state. -/
theorem concatenation_regroups_loop :
    ((Nfa.literal 'a').plus.concat .empty).concat (.literal 'b') =
        (Nfa.literal 'a').plus.concat (Nfa.empty.concat (.literal 'b')) ∧
      compilePostfix "a+b*·c·" = compilePostfix "a+b*c··" := by
  obtain ⟨automata, _, texts⟩ := concatenation_regroups
  constructor
  · exact automata _ _ _ Nfa.wellFormed_literal.plus Nfa.wellFormed_empty Nfa.wellFormed_literal
  · have plus : compilePostfix "a+" = .ok (Nfa.literal 'a').plus := by decide +kernel
    have star : compilePostfix "b*" = .ok (Nfa.literal 'b').star := by decide +kernel
    have last : compilePostfix "c" = .ok (.literal 'c') := by decide +kernel
    have left : "a+" ++ "b*" ++ "·" ++ "c" ++ "·" = "a+b*·c·" := by decide
    have right : "a+" ++ "b*" ++ "c" ++ "·" ++ "·" = "a+b*c··" := by decide
    have same := texts "a+" "b*" "c" _ _ _ plus (by decide) star (by decide) last (by decide)
    rw [left, right] at same
    exact same.1

end PatternAutomata
