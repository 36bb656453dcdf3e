import PatternAutomata.Proofs.Residual

/-! Each way of combining automata is an operation on their languages.

Nothing is assumed of the parts but that they are well formed: an accept state
may have edges of its own, and a start state may be entered again.
-/

set_option autoImplicit false

namespace PatternAutomata

open scoped Computability

namespace Nfa

variable {body left right : Nfa} {near far id : Nat} {mark : Option Char} {c : Char}

theorem language_literal : (literal c).language = {[c]} := by
  rw [wellFormed_literal.language_eq]
  apply Language.ext
  intro text
  constructor
  · intro path
    cases path with
    | silent edge _ => cases (hasEdge_literal.mp edge).2.1
    | read edge rest =>
      obtain ⟨_, same, rfl⟩ := hasEdge_literal.mp edge
      cases same
      cases rest with
      | here _ => rfl
      | silent edge _ => cases (hasEdge_literal.mp edge).1
      | read edge _ => cases (hasEdge_literal.mp edge).1
  · rintro rfl
    exact .read (hasEdge_literal.mpr ⟨rfl, rfl, rfl⟩) (.here Nat.one_lt_two)

theorem language_empty : empty.language = 1 := by
  rw [wellFormed_empty.language_eq]
  apply Language.ext
  intro text
  constructor
  · intro path
    cases path with
    | here _ => rfl
    | silent edge _ => exact absurd edge not_hasEdge_empty
    | read edge _ => exact absurd edge not_hasEdge_empty
  · rintro rfl
    exact .here Nat.one_pos

/-! ## One after the other -/

theorem concat_eq : left.concat right =
    ((left.adopt right).link left.accept none (right.start + left.size)).moveAccept
      (right.accept + left.size) := rfl

theorem hasEdge_concat (inside : left.accept < left.size) :
    (left.concat right).HasEdge near mark far ↔
      left.HasEdge near mark far ∨
        (∃ source target, right.HasEdge source mark target ∧
          near = source + left.size ∧ far = target + left.size) ∨
        near = left.accept ∧ mark = none ∧ far = right.start + left.size := by
  have bound : left.accept < left.size + right.size := Nat.lt_add_right _ inside
  rw [concat_eq, hasEdge_moveAccept, hasEdge_link, hasEdge_adopt, size_adopt]
  simp only [bound, and_true, or_assoc]

theorem size_concat : (left.concat right).size = left.size + right.size := by
  simp [concat]

@[simp] theorem start_concat : (left.concat right).start = left.start := by
  simp only [concat, start_moveAccept, start_link, start_adopt]

@[simp] theorem accept_concat : (left.concat right).accept = right.accept + left.size :=
  accept_moveAccept

theorem residual_concat_le (one : left.WellFormed) (two : right.WellFormed) :
    (left.concat right).residual id ≤
      spliced left.size (fun id => left.residual id * right.residual right.start) right.residual id := by
  apply residual_le
  · change 1 ≤ spliced left.size _ _ (right.accept + left.size)
    rw [spliced_add]
    exact one_le_residual two.accept_lt
  · intro near mark far edge text member
    obtain old | ⟨source, target, moved, rfl, rfl⟩ | ⟨rfl, rfl, rfl⟩ :=
      (hasEdge_concat one.accept_lt).mp edge
    · rw [spliced_of_lt (one.target_lt old)] at member
      rw [spliced_of_lt old.source_lt]
      exact residual_mul_kept old member
    · rw [spliced_add] at member ⊢
      exact residual_kept moved member
    · rw [spliced_add] at member
      rw [spliced_of_lt one.accept_lt]
      exact Language.append_mem_mul (one_le_residual one.accept_lt Language.nil_mem_one) member

theorem embeds_concat_left (inside : left.accept < left.size) :
    Embeds left (left.concat right) 0 where
  size_le := by
    rw [size_concat]
    omega
  hasEdge := fun edge => (hasEdge_concat inside).mpr (Or.inl edge)

theorem embeds_concat_right (inside : left.accept < left.size) :
    Embeds right (left.concat right) left.size where
  size_le := by
    rw [size_concat]
    omega
  hasEdge := fun edge => (hasEdge_concat inside).mpr (Or.inr (Or.inl ⟨_, _, edge, rfl, rfl⟩))

theorem language_concat (one : left.WellFormed) (two : right.WellFormed) :
    (left.concat right).language = left.language * right.language := by
  rw [(one.concat two).language_eq, one.language_eq, two.language_eq]
  apply le_antisymm
  · calc (left.concat right).residual left.start
        ≤ spliced left.size _ _ left.start := residual_concat_le one two
      _ = left.residual left.start * right.residual right.start := spliced_of_lt one.start_lt
  · have done : 1 ≤ (left.concat right).residual (right.accept + left.size) :=
      one_le_residual (one.concat two).accept_lt
    have link : (left.concat right).HasEdge left.accept none (right.start + left.size) :=
      (hasEdge_concat one.accept_lt).mpr (Or.inr (Or.inr ⟨rfl, rfl, rfl⟩))
    -- what the right part accepts can be read where the left part ends
    have late : right.residual right.start ≤ (left.concat right).residual left.accept :=
      ((embeds_concat_right one.accept_lt).le_residual done).trans (residual_le_of_edge link)
    exact (embeds_concat_left one.accept_lt).mul_le_residual late

/-! ## Around a body -/

theorem star_eq : body.star = body.enclose.linkAll
    [(body.size, body.size + 1), (body.size, body.start),
      (body.accept, body.size + 1), (body.accept, body.start)] := rfl

@[simp] theorem start_star : body.star.start = body.size := rfl

theorem optional_eq : body.optional = body.enclose.linkAll
    [(body.size, body.start), (body.accept, body.size + 1), (body.size, body.size + 1)] := rfl

@[simp] theorem start_optional : body.optional.start = body.size := rfl

theorem plus_eq : body.plus = body.enclose.linkAll
    [(body.size, body.start), (body.accept, body.size + 1), (body.size + 1, body.size)] := rfl

@[simp] theorem start_plus : body.plus.start = body.size := rfl

theorem residual_star_le (formed : body.WellFormed) :
    body.star.residual id ≤ spliced body.size
      (fun id => body.residual id * (body.residual body.start)∗)
      (atEnds (body.residual body.start)∗ 1) id := by
  have stop : 1 ≤ body.residual body.accept := one_le_residual formed.accept_lt
  rw [star_eq]
  -- inside the body the round is finished, and any number of rounds may follow
  apply residual_enclosed_le formed
  · intro near mark far edge text
    exact residual_mul_kept edge
  · simp only [List.forall_mem_cons, List.not_mem_nil, false_implies, implies_true, and_true,
      spliced_self, spliced_succ, spliced_of_lt formed.start_lt, spliced_of_lt formed.accept_lt, atEnds]
    refine ⟨one_le_kstar, mul_kstar_le_kstar, one_le_mul stop one_le_kstar, ?_⟩
    exact mul_kstar_le_kstar.trans (le_mul_of_one_le_left' stop)
  · exact le_rfl

theorem language_star (formed : body.WellFormed) : body.star.language = body.language∗ := by
  rw [formed.star.language_eq, formed.language_eq, start_star]
  apply le_antisymm
  · calc body.star.residual body.size
        ≤ spliced body.size _ (atEnds (body.residual body.start)∗ 1) body.size :=
          residual_star_le formed
      _ = (body.residual body.start)∗ := spliced_self
  · have exit := formed.accept_lt
    have stop : 1 ≤ body.star.residual body.accept :=
      one_le_residual_of_link (by simp) (by omega)
    -- after one round the body may be entered again, so all rounds can be put behind it
    have again : body.residual body.start * body.star.residual body.accept ≤
        body.star.residual body.accept :=
      (embeds_enclosed.mul_le_residual le_rfl).trans (residual_enclosed_link (by simp) (by omega))
    have more : (body.residual body.start)∗ ≤ body.star.residual body.accept :=
      kstar_le_of_mul_le_right stop again
    calc (body.residual body.start)∗
        = 1 + body.residual body.start * (body.residual body.start)∗ := one_add_mul_kstar.symm
      _ ≤ body.star.residual body.size := by
          apply add_le
          · exact one_le_residual_of_link (by simp) (by omega)
          · exact (embeds_enclosed.mul_le_residual more).trans
              (residual_enclosed_link (by simp) (by omega))

theorem mem_language_star_literal {c : Char} {text : List Char} :
    text ∈ (literal c).star.language ↔ ∀ d ∈ text, d = c := by
  rw [language_star wellFormed_literal, language_literal, Language.mem_kstar]
  constructor
  · rintro ⟨parts, rfl, each⟩ d member
    obtain ⟨part, among, inside⟩ := List.mem_flatten.mp member
    rw [each part among] at inside
    exact List.mem_singleton.mp inside
  · intro each
    refine ⟨text.map ([·]), ?_, fun part member => ?_⟩
    · rw [← List.flatMap_def, List.flatMap_singleton']
    · obtain ⟨d, among, rfl⟩ := List.mem_map.mp member
      rw [each d among]
      exact Set.mem_singleton _

theorem residual_plus_le (formed : body.WellFormed) :
    body.plus.residual id ≤ spliced body.size
      (fun id => body.residual id * (body.residual body.start)∗)
      (atEnds (body.residual body.start * (body.residual body.start)∗)
        (body.residual body.start)∗) id := by
  have stop : 1 ≤ body.residual body.accept := one_le_residual formed.accept_lt
  rw [plus_eq]
  apply residual_enclosed_le formed
  · intro near mark far edge text
    exact residual_mul_kept edge
  · simp only [List.forall_mem_cons, List.not_mem_nil, false_implies, implies_true, and_true,
      spliced_self, spliced_succ, spliced_of_lt formed.start_lt, spliced_of_lt formed.accept_lt, atEnds]
    exact ⟨le_rfl, le_mul_of_one_le_left' stop, mul_kstar_le_kstar⟩
  · exact one_le_kstar

theorem language_plus (formed : body.WellFormed) :
    body.plus.language = body.language * body.language∗ := by
  rw [formed.plus.language_eq, formed.language_eq, start_plus]
  apply le_antisymm
  · calc body.plus.residual body.size
        ≤ spliced body.size _ (atEnds (body.residual body.start * (body.residual body.start)∗) _)
            body.size := residual_plus_le formed
      _ = body.residual body.start * (body.residual body.start)∗ := spliced_self
  · have exit := formed.accept_lt
    have stop : 1 ≤ body.plus.residual body.accept :=
      one_le_residual_of_link (by simp) (by omega)
    -- from the new accept state back to the new start state, and in again
    have back : body.plus.residual body.start ≤ body.plus.residual body.accept :=
      calc body.plus.residual body.start
          ≤ body.plus.residual body.size := residual_enclosed_link (by simp) (by omega)
        _ ≤ body.plus.residual (body.size + 1) := residual_enclosed_link (by simp) (by omega)
        _ ≤ body.plus.residual body.accept := residual_enclosed_link (by simp) (by omega)
    have again : body.residual body.start * body.plus.residual body.accept ≤
        body.plus.residual body.accept := (embeds_enclosed.mul_le_residual le_rfl).trans back
    have more : (body.residual body.start)∗ ≤ body.plus.residual body.accept :=
      kstar_le_of_mul_le_right stop again
    exact (embeds_enclosed.mul_le_residual more).trans (residual_enclosed_link (by simp) (by omega))

theorem residual_optional_le (formed : body.WellFormed) :
    body.optional.residual id ≤
      spliced body.size body.residual (atEnds (body.residual body.start + 1) 1) id := by
  rw [optional_eq]
  apply residual_enclosed_le formed
  · intro near mark far edge text
    exact residual_kept edge
  · simp only [List.forall_mem_cons, List.not_mem_nil, false_implies, implies_true, and_true,
      spliced_self, spliced_succ, spliced_of_lt formed.start_lt, spliced_of_lt formed.accept_lt, atEnds]
    exact ⟨le_add_right le_rfl, one_le_residual formed.accept_lt, le_add_left le_rfl⟩
  · exact le_rfl

theorem language_optional (formed : body.WellFormed) :
    body.optional.language = body.language + 1 := by
  rw [formed.optional.language_eq, formed.language_eq, start_optional]
  apply le_antisymm
  · calc body.optional.residual body.size
        ≤ spliced body.size _ (atEnds (body.residual body.start + 1) 1) body.size :=
          residual_optional_le formed
      _ = body.residual body.start + 1 := spliced_self
  · have exit := formed.accept_lt
    have stop : 1 ≤ body.optional.residual body.accept :=
      one_le_residual_of_link (by simp) (by omega)
    apply add_le
    · exact (embeds_enclosed.le_residual stop).trans (residual_enclosed_link (by simp) (by omega))
    · exact one_le_residual_of_link (by simp) (by omega)

/-! ## One or the other -/

theorem union_eq : left.union right = (left.adopt right).enclose.linkAll
    [((left.adopt right).size, left.start), ((left.adopt right).size, right.start + left.size),
      (left.accept, (left.adopt right).size + 1),
      (right.accept + left.size, (left.adopt right).size + 1)] := rfl

@[simp] theorem start_union : (left.union right).start = (left.adopt right).size := rfl

theorem residual_union_le (one : left.WellFormed) (two : right.WellFormed) :
    (left.union right).residual id ≤
      spliced (left.adopt right).size (spliced left.size left.residual right.residual)
        (atEnds (left.residual left.start + right.residual right.start) 1) id := by
  have entry := two.start_lt
  have exit := two.accept_lt
  have before : left.start < (left.adopt right).size := (one.adopt two).start_lt
  have behind : left.accept < (left.adopt right).size := (one.adopt two).accept_lt
  have entry : right.start + left.size < (left.adopt right).size := by
    rw [size_adopt]
    omega
  have exit : right.accept + left.size < (left.adopt right).size := by
    rw [size_adopt]
    omega
  rw [union_eq]
  apply residual_enclosed_le (one.adopt two)
  -- an edge of the two parts stays in its part
  · intro near mark far edge text member
    rcases hasEdge_adopt.mp edge with old | ⟨source, target, moved, rfl, rfl⟩
    · rw [spliced_of_lt (one.target_lt old)] at member
      rw [spliced_of_lt old.source_lt]
      exact residual_kept old member
    · rw [spliced_add] at member ⊢
      exact residual_kept moved member
  · simp only [List.forall_mem_cons, List.not_mem_nil, false_implies, implies_true, and_true,
      spliced_self, spliced_succ, spliced_of_lt before, spliced_of_lt behind, spliced_of_lt entry,
      spliced_of_lt exit, spliced_of_lt one.start_lt, spliced_of_lt one.accept_lt, spliced_add, atEnds]
    refine ⟨le_add_right le_rfl, le_add_left le_rfl, ?_, ?_⟩
    · exact one_le_residual one.accept_lt
    · exact one_le_residual two.accept_lt
  · exact le_rfl

theorem embeds_union_left : Embeds left (left.union right) 0 :=
  embeds_adopt_left.trans embeds_enclosed

theorem embeds_union_right : Embeds right (left.union right) left.size :=
  embeds_adopt_right.trans embeds_enclosed

theorem language_union (one : left.WellFormed) (two : right.WellFormed) :
    (left.union right).language = left.language + right.language := by
  rw [(one.union two).language_eq, one.language_eq, two.language_eq, start_union]
  apply le_antisymm
  · calc (left.union right).residual (left.adopt right).size
        ≤ spliced (left.adopt right).size _
            (atEnds (left.residual left.start + right.residual right.start) 1)
            (left.adopt right).size := residual_union_le one two
      _ = left.residual left.start + right.residual right.start := spliced_self
  · have exit := one.accept_lt
    have other := two.accept_lt
    apply add_le
    · have stop : 1 ≤ (left.union right).residual left.accept :=
        one_le_residual_of_link (by simp) (by rw [size_adopt]; omega)
      exact (embeds_union_left.le_residual stop).trans (residual_enclosed_link (by simp) (by omega))
    · have stop : 1 ≤ (left.union right).residual (right.accept + left.size) :=
        one_le_residual_of_link (by simp) (by rw [size_adopt]; omega)
      exact (embeds_union_right.le_residual stop).trans (residual_enclosed_link (by simp) (by omega))

/-- Every way of building an automaton has the language that its name promises, for all well-formed
parts. -/
theorem combining_realises_operations (one : left.WellFormed) (two : right.WellFormed) :
    (left.concat right).language = left.language * right.language ∧
      (left.union right).language = left.language + right.language ∧
      left.star.language = left.language∗ ∧
      left.plus.language = left.language * left.language∗ ∧
      left.optional.language = left.language + 1 ∧
      (∀ c, (literal c).language = {[c]}) ∧ empty.language = 1 := by
  refine ⟨language_concat one two, language_union one two, ?_, ?_, ?_, ?_, language_empty⟩
  · exact language_star one
  · exact language_plus one
  · exact language_optional one
  · intro c
    exact language_literal

/-- The one state of the left part is its start and its accept state, with an edge to itself. -/
theorem combining_realises_operations_self_loop :
    (empty.link 0 (some 'a') 0).WellFormed ∧
      ((empty.link 0 (some 'a') 0).concat (literal 'b')).language =
        (empty.link 0 (some 'a') 0).language * (literal 'b').language := by
  have loop : (empty.link 0 (some 'a') 0).WellFormed := wellFormed_empty.link Nat.one_pos
  exact ⟨loop, (combining_realises_operations loop wellFormed_literal).1⟩

end Nfa

theorem Expr.language_toNfa (e : Expr) : e.toNfa.language = e.language := by
  induction e with
  | literal c => exact Nfa.language_literal
  | joined how left right one two =>
    cases how with
    | concat =>
      rw [toNfa, Nfa.joined, language, ← one, ← two]
      exact Nfa.language_concat left.wellFormed_toNfa right.wellFormed_toNfa
    | union =>
      rw [toNfa, Nfa.joined, language, ← one, ← two]
      exact Nfa.language_union left.wellFormed_toNfa right.wellFormed_toNfa
  | repeated how body ih =>
    cases how with
    | star =>
      rw [toNfa, Nfa.repeated, language, ← ih]
      exact Nfa.language_star body.wellFormed_toNfa
    | plus =>
      rw [toNfa, Nfa.repeated, language, ← ih]
      exact Nfa.language_plus body.wellFormed_toNfa
    | optional =>
      rw [toNfa, Nfa.repeated, language, ← ih]
      exact Nfa.language_optional body.wellFormed_toNfa

end PatternAutomata
