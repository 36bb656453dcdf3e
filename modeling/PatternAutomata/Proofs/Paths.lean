import PatternAutomata.Nfa.Path

/-! Paths joined end to end and taken apart again.

A path that spells two texts in turn passes through a state between them. What
it does before, at and after one character is read off from this.
-/

set_option autoImplicit false

namespace PatternAutomata

namespace Nfa

variable {automaton : Nfa} {source middle target : Nat} {first second text : List Char} {c : Char}

theorem HasEdge.source_lt {label : Option Char} (edge : automaton.HasEdge source label target) :
    source < automaton.size := by
  obtain ⟨state, found, _⟩ := edge
  exact (Array.getElem?_eq_some_iff.mp found).1

theorem Path.source_lt (path : automaton.Path source text target) : source < automaton.size := by
  cases path with
  | here inside => exact inside
  | silent edge _ => exact edge.source_lt
  | read edge _ => exact edge.source_lt

theorem Path.target_lt (path : automaton.Path source text target) : target < automaton.size := by
  induction path with
  | here inside => exact inside
  | silent _ _ ih => exact ih
  | read _ _ ih => exact ih

theorem Path.append (before : automaton.Path source first middle)
    (after : automaton.Path middle second target) :
    automaton.Path source (first ++ second) target := by
  induction before with
  | here _ => exact after
  | silent edge _ ih => exact .silent edge (ih after)
  | read edge _ ih => exact .read edge (ih after)

theorem Path.split (path : automaton.Path source text target) (same : text = first ++ second) :
    ∃ middle, automaton.Path source first middle ∧ automaton.Path middle second target := by
  -- the division of the text moves along with the path
  induction path generalizing first with
  | here inside =>
    obtain ⟨rfl, rfl⟩ := List.append_eq_nil_iff.mp same.symm
    exact ⟨_, .here inside, .here inside⟩
  | silent edge _ ih =>
    obtain ⟨middle, before, after⟩ := ih same
    exact ⟨middle, .silent edge before, after⟩
  | read edge rest ih =>
    cases first with
    | nil =>
      rw [List.nil_append] at same
      exact ⟨_, .here edge.source_lt, same ▸ .read edge rest⟩
    | cons head tail =>
      rw [List.cons_append, List.cons.injEq] at same
      obtain ⟨rfl, same⟩ := same
      obtain ⟨middle, before, after⟩ := ih same
      exact ⟨middle, .read edge before, after⟩

theorem path_append_iff :
    automaton.Path source (first ++ second) target ↔
      ∃ middle, automaton.Path source first middle ∧ automaton.Path middle second target :=
  ⟨fun path => path.split rfl, fun ⟨_, before, after⟩ => before.append after⟩

theorem path_singleton_iff :
    automaton.Path source [c] target ↔
      ∃ near far, automaton.Path source [] near ∧ automaton.HasEdge near (some c) far ∧
        automaton.Path far [] target := by
  constructor
  · intro path
    generalize same : [c] = text at path
    induction path with
    | here _ => cases same
    | silent edge _ ih =>
      obtain ⟨near, far, before, read, after⟩ := ih same
      exact ⟨near, far, .silent edge before, read, after⟩
    | read edge rest _ =>
      cases same
      exact ⟨_, _, .here edge.source_lt, edge, rest⟩
  · intro ⟨near, far, before, edge, after⟩
    exact before.append (.read edge after)

/-- The last character of a path is read from a state where the path could stop before it. -/
theorem path_concat_iff :
    automaton.Path source (text ++ [c]) target ↔
      ∃ near far, automaton.Path source text near ∧ automaton.HasEdge near (some c) far ∧
        automaton.Path far [] target := by
  rw [path_append_iff]
  constructor
  · intro ⟨middle, before, last⟩
    obtain ⟨near, far, quiet, edge, after⟩ := path_singleton_iff.mp last
    have joined := before.append quiet
    rw [List.append_nil] at joined
    exact ⟨near, far, joined, edge, after⟩
  · intro ⟨near, far, before, edge, after⟩
    exact ⟨near, before, .read edge after⟩

end Nfa

end PatternAutomata
