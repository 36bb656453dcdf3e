import PatternAutomata.Proofs.Grouping
import PatternAutomata.Proofs.Marking

/-! Markers left out of patterns that compile.

In such a pattern every marker stands between a token that is complete and one
that starts an operand. Marking puts it back there, so the pattern is read as if
it had never been left out.
-/

set_option autoImplicit false

namespace PatternAutomata

open Token

/-- The second text is the first one with some of its markers left out. -/
inductive Thinned : List Char → List Char → Prop where
  | nil : Thinned [] []
  | keep {c : Char} {full thin : List Char} : Thinned full thin → Thinned (c :: full) (c :: thin)
  | drop {full thin : List Char} : Thinned full thin → Thinned (concatMarker :: full) thin

variable {pattern other : String} {automaton : Nfa} {full thin : List Char} {before next : Token}
  {rest : List Token} {c : Char}

theorem Thinned.exists_cons (thinned : Thinned (c :: full) thin) (kept : c ≠ concatMarker) :
    ∃ later, thin = c :: later := by
  cases thinned with
  | keep later => exact ⟨_, rfl⟩
  | drop _ => exact absurd rfl kept

theorem Thinned.eq_of_not_mem (thinned : Thinned full thin) (free : concatMarker ∉ full) :
    thin = full := by
  induction thinned with
  | nil => rfl
  | keep _ ih => rw [ih fun member => free (List.mem_cons_of_mem _ member)]
  | drop _ _ => exact absurd List.mem_cons_self free

/-! ## Marking puts the markers back -/

theorem following_marker (before : Token) (rest : List Token) :
    before.following (connective .concat :: rest) =
      connective .concat :: (connective .concat).following rest := by
  rw [following, gap_eq_nil_of_binds rfl]
  rfl

theorem following_of_meets (complete : before.awaitsOperand = false)
    (starts : next.bindsLeft = false) :
    before.following (next :: rest) = before.following (connective .concat :: next :: rest) := by
  rw [following_marker, following, following, gap_eq_marker complete starts, gap_eq_nil_of_awaits rfl]
  rfl

/-- Among fitting neighbours it makes no difference to the marking which markers are left out. -/
theorem Thinned.following_eq (thinned : Thinned full thin)
    (fits : List.IsChain Fits (before :: full.map ofChar ++ [.closeGroup])) :
    before.following (thin.map ofChar) = before.following (full.map ofChar) := by
  have marker : ofChar concatMarker = connective .concat := by decide
  induction thinned generalizing before with
  | nil => rfl
  | keep _ ih =>
    obtain ⟨_, fits⟩ := List.isChain_cons_cons.mp fits
    simp only [List.map_cons, following, ih fits]
  | @drop full thin thinned ih =>
    rw [List.map_cons, marker] at fits ⊢
    obtain ⟨fit, fits⟩ := List.isChain_cons_cons.mp fits
    have complete : before.awaitsOperand = false := fit.resolve_right (by simp [bindsLeft])
    cases full with
    -- a marker is never the last token before a group ends
    | nil => simp [Fits, awaitsOperand, bindsLeft] at fits
    | cons c full =>
      have starts : (ofChar c).bindsLeft = false :=
        (List.isChain_cons_cons.mp fits).1.resolve_left (by simp [awaitsOperand])
      have kept : c ≠ concatMarker := by
        rintro rfl
        rw [marker] at starts
        cases starts
      obtain ⟨later, rfl⟩ := thinned.exists_cons kept
      calc before.following ((c :: later).map ofChar)
          = before.following (connective .concat :: (c :: later).map ofChar) :=
            following_of_meets complete starts
        _ = before.following (connective .concat :: (c :: full).map ofChar) := by
            rw [following_marker, following_marker, ih fits]

theorem Thinned.explicit_eq (thinned : Thinned pattern.toList other.toList)
    (known : compile pattern = .ok automaton) :
    explicit (other.toList.map ofChar) = explicit (pattern.toList.map ofChar) := by
  obtain ⟨out, ordered, built⟩ := compile_eq_ok_iff.mp known
  rcases build_eq_ok_iff.mp built with ⟨rfl, _⟩ | ⟨e, spelled, _⟩
  · obtain ⟨depth, same⟩ := eq_nested_of_postfixOrder ordered
    have free : concatMarker ∉ pattern.toList := by
      simp [same, nested, concatMarker]
    rw [thinned.eq_of_not_mem free]
  · rw [explicit_eq_following, explicit_eq_following,
      thinned.following_eq (fits_of_postorder ordered spelled)]

/-! ## Reading what is marked -/

theorem markConcatenation_eq (pattern : String) :
    markConcatenation pattern =
      String.ofList ((explicit (pattern.toList.map ofChar)).map toChar) := by
  rw [markConcatenation, spelling, ← tokens_marked_lexemes, List.map_map]
  rfl

theorem compile_markConcatenation_eq_ok_iff :
    compile (markConcatenation pattern) = .ok automaton ↔ compile pattern = .ok automaton := by
  rw [compile_eq_mapError pattern, mapError_eq_ok_iff]

/-- Any markers may be left out of a pattern that compiles. They are put back where they stood, the
text of the postfix order is the same, and so is the automaton. -/
theorem written_markers_are_redundant (known : compile pattern = .ok automaton)
    (thinned : Thinned pattern.toList other.toList) :
    markConcatenation other = markConcatenation pattern ∧
      (∃ text, postfixText pattern = .ok text ∧ postfixText other = .ok text) ∧
      compile other = .ok automaton := by
  have same := thinned.explicit_eq known
  have marks : markConcatenation other = markConcatenation pattern := by
    rw [markConcatenation_eq, markConcatenation_eq, same]
  obtain ⟨out, ordered, _⟩ := compile_eq_ok_iff.mp known
  have written : postfixText pattern = .ok (spelling out) := by
    rw [postfixText, ordered]
    rfl
  refine ⟨marks, ⟨spelling out, written, ?_⟩, ?_⟩
  · rw [postfixText_eq_ok_iff_spelledOrder, same, ← postfixText_eq_ok_iff_spelledOrder]
    exact written
  · rw [← compile_markConcatenation_eq_ok_iff, marks, compile_markConcatenation_eq_ok_iff]
    exact known

theorem written_markers_are_redundant_group :
    Thinned "a·(b·c)*".toList "a(b·c)*".toList ∧ markConcatenation "a(b·c)*" = "a·(b·c)*" ∧
      compile "a(b·c)*" = compile "a·(b·c)*" := by
  have known : compile "a·(b·c)*" = .ok ((Nfa.literal 'a').concat
      ((Nfa.literal 'b').concat (.literal 'c')).star) := rfl
  have thinned : Thinned "a·(b·c)*".toList "a(b·c)*".toList :=
    .keep (.drop (.keep (.keep (.keep (.keep (.keep (.keep .nil)))))))
  obtain ⟨marks, _, compiled⟩ := written_markers_are_redundant known thinned
  exact ⟨thinned, marks.trans rfl, compiled.trans known.symm⟩

end PatternAutomata
