import Mathlib.Order.CompletePartialOrder
import PatternAutomata.Language
import PatternAutomata.Proofs.Arena
import PatternAutomata.Proofs.PathSemantics

/-! The languages of combined automata.

Every state has a residual language, the texts that lead from it to the accept
state. Residuals are the least languages that edges allow, so an upper bound
needs only one inequality for each edge. Lower bounds come from the parts: a
path of a part is a path of the whole. Between the two, the laws of Kleene
algebra do the counting of repetitions.
-/

set_option autoImplicit false

namespace PatternAutomata

open scoped Computability

namespace Nfa

variable {automaton part whole body left right : Nfa} {id near far offset : Nat}
  {mark : Option Char} {text : List Char} {pairs : List (Nat × Nat)}

def residual (automaton : Nfa) (id : Nat) : Language Char :=
  fun text => automaton.Path id text automaton.accept

theorem WellFormed.language_eq (formed : automaton.WellFormed) :
    automaton.language = automaton.residual automaton.start := by
  apply Language.ext
  intro text
  change automaton.accepts (String.ofList text) = true ↔ _
  rw [formed.accepts_iff, String.toList_ofList]
  rfl

theorem residual_kept (edge : automaton.HasEdge near mark far) (member : text ∈ automaton.residual far) :
    mark.toList ++ text ∈ automaton.residual near := by
  cases mark with
  | none => exact .silent edge member
  | some c => exact .read edge member

theorem residual_le_of_edge (edge : automaton.HasEdge near none far) :
    automaton.residual far ≤ automaton.residual near :=
  fun _ member => residual_kept edge member

theorem one_le_residual (inside : automaton.accept < automaton.size) :
    1 ≤ automaton.residual automaton.accept := by
  rintro text rfl
  exact .here inside

/-- Languages that edges respect bound the residuals. -/
theorem residual_le {bounds : Nat → Language Char} (done : 1 ≤ bounds automaton.accept)
    (kept : ∀ near mark far, automaton.HasEdge near mark far →
      ∀ text ∈ bounds far, mark.toList ++ text ∈ bounds near) :
    automaton.residual id ≤ bounds id := by
  intro text path
  change automaton.Path id text automaton.accept at path
  -- an induction on the path needs its end as a variable
  generalize last : automaton.accept = target at path
  induction path with
  | here _ =>
    subst last
    exact done Language.nil_mem_one
  | silent edge _ ih => exact kept _ _ _ edge _ (ih last)
  | read edge _ ih => exact kept _ _ _ edge _ (ih last)

/-! ## Parts of an automaton -/

/-- The part is found in the whole with its states renumbered. -/
structure Embeds (part whole : Nfa) (offset : Nat) : Prop where
  size_le : part.size + offset ≤ whole.size
  hasEdge : ∀ {near far : Nat} {mark : Option Char},
    part.HasEdge near mark far → whole.HasEdge (near + offset) mark (far + offset)

theorem Embeds.path (embeds : Embeds part whole offset) (path : part.Path near text far) :
    whole.Path (near + offset) text (far + offset) := by
  induction path with
  | here inside =>
    have bound := embeds.size_le
    exact .here (by omega)
  | silent edge _ ih => exact .silent (embeds.hasEdge edge) ih
  | read edge _ ih => exact .read (embeds.hasEdge edge) ih

theorem Embeds.trans {larger : Nfa} {more : Nat} (first : Embeds part whole offset)
    (second : Embeds whole larger more) : Embeds part larger (offset + more) where
  size_le := by
    have inner := first.size_le
    have outer := second.size_le
    omega
  hasEdge := by
    intro near far mark edge
    have renumbered := second.hasEdge (first.hasEdge edge)
    rwa [Nat.add_assoc, Nat.add_assoc] at renumbered

theorem embeds_adopt_left : Embeds left (left.adopt right) 0 where
  size_le := by
    rw [size_adopt]
    omega
  hasEdge := fun edge => hasEdge_adopt.mpr (Or.inl edge)

theorem embeds_adopt_right : Embeds right (left.adopt right) left.size where
  size_le := by
    rw [size_adopt]
    omega
  hasEdge := fun edge => hasEdge_adopt.mpr (Or.inr ⟨_, _, edge, rfl, rfl⟩)

theorem Embeds.mul_le_residual {rest : Language Char} (embeds : Embeds part whole offset)
    (goes : rest ≤ whole.residual (part.accept + offset)) :
    part.residual id * rest ≤ whole.residual (id + offset) := by
  intro text member
  obtain ⟨first, path, second, tail, rfl⟩ := Language.mem_mul.mp member
  exact (embeds.path path).append (goes tail)

theorem Embeds.le_residual (embeds : Embeds part whole offset)
    (ends : 1 ≤ whole.residual (part.accept + offset)) :
    part.residual id ≤ whole.residual (id + offset) := by
  rw [← mul_one (part.residual id)]
  exact embeds.mul_le_residual ends

theorem residual_mul_kept {rest : Language Char} (edge : automaton.HasEdge near mark far)
    (member : text ∈ automaton.residual far * rest) :
    mark.toList ++ text ∈ automaton.residual near * rest := by
  obtain ⟨first, path, second, tail, rfl⟩ := Language.mem_mul.mp member
  rw [← List.append_assoc]
  exact Language.append_mem_mul (residual_kept edge path) tail

/-! ## Bounds given piece by piece -/

/-- One family of languages below a number, and another, counted anew, from it on. -/
def spliced (bound : Nat) (below above : Nat → Language Char) (id : Nat) : Language Char :=
  if id < bound then below id else above (id - bound)

section
variable {bound : Nat} {below above : Nat → Language Char}

def atEnds (entry exit : Language Char) : Nat → Language Char
  | 0 => entry
  | _ + 1 => exit

theorem spliced_of_lt (inside : id < bound) : spliced bound below above id = below id :=
  if_pos inside

@[simp] theorem spliced_add : spliced bound below above (id + bound) = above id := by
  have outside : ¬id + bound < bound := Nat.not_lt.mpr (Nat.le_add_left _ _)
  rw [spliced, if_neg outside, Nat.add_sub_cancel]

@[simp] theorem spliced_self : spliced bound below above bound = above 0 := by
  simp [spliced]

@[simp] theorem spliced_succ : spliced bound below above (bound + 1) = above 1 := by
  simp [spliced]

end

/-- The bounds of a combined automaton: those of its body, and one for each new state. -/
theorem residual_enclosed_le {inner ends : Nat → Language Char} (formed : body.WellFormed)
    (kept : ∀ near mark far, body.HasEdge near mark far →
      ∀ text ∈ inner far, mark.toList ++ text ∈ inner near)
    (drawn : ∀ pair ∈ pairs,
      spliced body.size inner ends pair.2 ≤ spliced body.size inner ends pair.1)
    (done : 1 ≤ ends 1) :
    (body.enclose.linkAll pairs).residual id ≤ spliced body.size inner ends id := by
  apply residual_le
  · rw [accept_linkAll, accept_enclose, spliced_succ]
    exact done
  · intro near mark far edge text member
    rcases hasEdge_linkAll.mp edge with old | ⟨rfl, pair, _⟩
    · have inside := hasEdge_enclose.mp old
      rw [spliced_of_lt (formed.target_lt inside)] at member
      rw [spliced_of_lt inside.source_lt]
      exact kept near mark far inside text member
    · exact drawn (near, far) pair member

theorem embeds_enclosed : Embeds body (body.enclose.linkAll pairs) 0 where
  size_le := by
    rw [size_linkAll, size_enclose]
    exact Nat.le_add_right _ 2
  hasEdge := fun edge => hasEdge_linkAll.mpr (Or.inl (hasEdge_enclose.mpr edge))

theorem residual_enclosed_link (drawn : (near, far) ∈ pairs) (inside : near < body.size + 2) :
    (body.enclose.linkAll pairs).residual far ≤ (body.enclose.linkAll pairs).residual near := by
  apply residual_le_of_edge
  rw [hasEdge_linkAll, size_enclose]
  exact Or.inr ⟨rfl, drawn, inside⟩

theorem one_le_residual_enclosed :
    1 ≤ (body.enclose.linkAll pairs).residual (body.size + 1) := by
  have exit : (body.enclose.linkAll pairs).accept = body.size + 1 := accept_linkAll
  rw [← exit]
  apply one_le_residual
  simp

theorem one_le_residual_of_link (drawn : (near, body.size + 1) ∈ pairs)
    (inside : near < body.size + 2) : 1 ≤ (body.enclose.linkAll pairs).residual near :=
  one_le_residual_enclosed.trans (residual_enclosed_link drawn inside)

end Nfa

end PatternAutomata
