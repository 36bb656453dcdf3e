import Mathlib.Data.List.Induction
import PatternAutomata.Proofs.Arena
import PatternAutomata.Proofs.Closure

/-! The states after a text are the ends of the paths that spell it.

Reading one character extends every path by an edge with that character and
silent edges behind it. Giving up on an empty set changes no answer, because
nothing is reached from there.
-/

set_option autoImplicit false

namespace PatternAutomata

namespace Nfa

variable {automaton : Nfa} {current : StateSet} {target : Nat} {text : List Char} {c : Char}

theorem mem_step_iff :
    target ∈ automaton.step current c ↔
      ∃ near ∈ current, ∃ far, automaton.HasEdge near (some c) far ∧ automaton.Path far [] target := by
  simp only [step, mem_closure_iff, List.mem_flatMap, Std.ExtTreeSet.mem_toList, mem_targets_iff]
  constructor
  · intro ⟨far, ⟨near, member, edge⟩, path⟩
    exact ⟨near, member, far, edge, path⟩
  · intro ⟨near, member, far, edge, path⟩
    exact ⟨far, ⟨near, member, edge⟩, path⟩

theorem after_concat : automaton.after (text ++ [c]) = automaton.step (automaton.after text) c := by
  simp [after]

/-- The states after a text are the ends of the paths from the start state that spell it. -/
theorem mem_after_iff :
    target ∈ automaton.after text ↔ automaton.Path automaton.start text target := by
  -- from the end of the text, since a step extends the paths at their ends
  induction text using List.reverseRecOn generalizing target with
  | nil => simp [after, initial, mem_closure_iff]
  | append_singleton text c ih =>
    rw [after_concat, mem_step_iff, path_concat_iff]
    constructor
    · intro ⟨near, member, far, edge, path⟩
      exact ⟨near, far, ih.mp member, edge, path⟩
    · intro ⟨near, far, path, edge, rest⟩
      exact ⟨near, ih.mpr path, far, edge, rest⟩

theorem step_empty : automaton.step ∅ c = ∅ := by
  apply Std.ExtTreeSet.ext_mem
  intro id
  simp [mem_step_iff]

theorem foldl_step_empty : text.foldl automaton.step ∅ = ∅ := by
  induction text with
  | nil => rfl
  | cons c rest ih => rw [List.foldl_cons, step_empty, ih]

theorem mem_alphabet_iff :
    c ∈ automaton.alphabet ↔ ∃ near far, automaton.HasEdge near (some c) far := by
  simp only [alphabet, Std.ExtTreeSet.mem_ofList, List.contains_iff_mem, List.mem_flatMap,
    List.mem_filterMap]
  constructor
  · intro ⟨state, member, edge, drawn, label⟩
    obtain ⟨near, found⟩ := List.mem_iff_getElem?.mp member
    rw [Array.getElem?_toList] at found
    exact ⟨near, edge.target, state, found, by rwa [← label]⟩
  · intro ⟨near, far, state, found, drawn⟩
    exact ⟨state, Array.mem_toList_iff.mpr (Array.mem_of_getElem? found), _, drawn, rfl⟩

theorem nodup_alphabet : automaton.alphabet.toList.Nodup :=
  Std.ExtTreeSet.distinct_toList.imp fun apart same =>
    apart (Std.LawfulEqCmp.compare_eq_iff_eq.mpr same)

theorem step_eq_empty (unused : c ∉ automaton.alphabet) : automaton.step current c = ∅ := by
  refine Std.ExtTreeSet.ext_mem fun id => ⟨fun member => ?_, fun member => by simp at member⟩
  obtain ⟨near, _, far, edge, _⟩ := mem_step_iff.mp member
  exact absurd (mem_alphabet_iff.mpr ⟨near, far, edge⟩) unused

/-- A run that gives up stands for the empty set, where going on would end as well. -/
theorem run?_getD :
    (automaton.run? current text).getD ∅ = text.foldl automaton.step current := by
  induction text generalizing current with
  | nil => rfl
  | cons c rest ih =>
    simp only [run?, List.foldl_cons]
    split
    · rename_i none
      rw [Std.ExtTreeSet.isEmpty_iff.mp none, foldl_step_empty]
      rfl
    · exact ih

theorem anyAccepting_empty : automaton.anyAccepting ∅ = false := by
  simp [anyAccepting]

theorem accepts_eq_anyAccepting {input : String} :
    automaton.accepts input = automaton.anyAccepting (automaton.after input.toList) := by
  rw [accepts, after, ← run?_getD]
  cases automaton.run? automaton.initial input.toList with
  | none => exact anyAccepting_empty.symm
  | some set => rfl

theorem WellFormed.anyAccepting_iff (formed : automaton.WellFormed) :
    automaton.anyAccepting current = true ↔ automaton.accept ∈ current := by
  simp only [anyAccepting, List.any_eq_true, Std.ExtTreeSet.mem_toList, Option.any_eq_true]
  constructor
  · intro ⟨id, member, state, found, accepting⟩
    rw [(formed.accepting_iff found).mp accepting] at member
    exact member
  · intro member
    have inside : automaton.accept < automaton.states.size := formed.accept_lt
    have found : automaton.state? automaton.accept = some automaton.states[automaton.accept] :=
      Array.getElem?_eq_getElem inside
    exact ⟨_, member, _, found, (formed.accepting_iff found).mpr rfl⟩

theorem WellFormed.accepts_iff (formed : automaton.WellFormed) {input : String} :
    automaton.accepts input = true ↔
      automaton.Path automaton.start input.toList automaton.accept := by
  rw [accepts_eq_anyAccepting, formed.anyAccepting_iff, mem_after_iff]

theorem walk_getElem? {input : String} {place : Nat} :
    (automaton.walk input)[place]? =
      if place ≤ input.toList.length then some (automaton.after (input.toList.take place)) else none :=
  List.getElem?_scanl

theorem walk_getLast? {input : String} :
    (automaton.walk input).getLast? = some (automaton.after input.toList) :=
  List.getLast?_scanl

/-- What a run finds is what paths allow: each set of the walk holds the ends of the paths that
spell the text read so far, and stopping early accepts the same inputs as walking to the end. -/
theorem simulation_follows_paths (formed : automaton.WellFormed) (input : String) :
    (automaton.accepts input = true ↔
        automaton.Path automaton.start input.toList automaton.accept) ∧
      (automaton.walk input).length = input.toList.length + 1 ∧
      (∀ place ≤ input.toList.length, ∃ set, (automaton.walk input)[place]? = some set ∧
        ∀ id, id ∈ set ↔ automaton.Path automaton.start (input.toList.take place) id) ∧
      (automaton.walk input).getLast? = some (automaton.after input.toList) ∧
      automaton.accepts input = automaton.anyAccepting (automaton.after input.toList) := by
  refine ⟨formed.accepts_iff, List.length_scanl, ?_, walk_getLast?, accepts_eq_anyAccepting⟩
  intro place inside
  refine ⟨automaton.after (input.toList.take place), ?_, fun id => mem_after_iff⟩
  rw [walk_getElem?, if_pos inside]

theorem simulation_follows_paths_around_loop :
    (literal 'a').star.WellFormed ∧ (literal 'a').star.Path 2 ['a', 'a'] 3 ∧
      (literal 'a').star.accepts "aa" = true := by
  have formed : (literal 'a').star.WellFormed := wellFormed_literal.star
  have enter : (literal 'a').star.HasEdge 2 none 0 := ⟨_, rfl, by decide⟩
  have read : (literal 'a').star.HasEdge 0 (some 'a') 1 := ⟨_, rfl, by decide⟩
  have again : (literal 'a').star.HasEdge 1 none 0 := ⟨_, rfl, by decide⟩
  have leave : (literal 'a').star.HasEdge 1 none 3 := ⟨_, rfl, by decide⟩
  have path : (literal 'a').star.Path 2 ['a', 'a'] 3 :=
    .silent enter (.read read (.silent again (.read read (.silent leave (.here (by decide))))))
  exact ⟨formed, path, (simulation_follows_paths formed "aa").1.mpr path⟩

end Nfa

end PatternAutomata
