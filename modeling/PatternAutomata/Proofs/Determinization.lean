import PatternAutomata.Proofs.Arena
import PatternAutomata.Proofs.Exploration
import PatternAutomata.Proofs.LanguageOperations
import PatternAutomata.Proofs.Reading

/-! The deterministic automaton runs like the simulation it was explored from.

Its run is in the state of the set that the simulation is in, and it stops
where that set is empty for the first time. So both accept the same texts.
-/

set_option autoImplicit false

namespace PatternAutomata

theorem wellFormed_of_build {tokens : List Lexeme} {automaton : Nfa}
    (built : build tokens = .ok automaton) : automaton.WellFormed := by
  obtain ⟨_, rfl⟩ | ⟨e, _, rfl⟩ := build_eq_ok_iff.mp built
  · exact Nfa.wellFormed_empty
  · exact e.wellFormed_toNfa

/-- An automaton that compiling returned, whichever way the pattern was written. -/
def Compiled (automaton : Nfa) : Prop :=
  (∃ pattern, compile pattern = .ok automaton) ∨ ∃ text, compilePostfix text = .ok automaton

theorem Compiled.wellFormed {automaton : Nfa} (compiled : Compiled automaton) :
    automaton.WellFormed := by
  obtain ⟨pattern, known⟩ | ⟨text, built⟩ := compiled
  · obtain ⟨tokens, _, built⟩ := compile_eq_ok_iff.mp known
    exact wellFormed_of_build built
  · exact wellFormed_of_build built

namespace Dfa

variable {automaton : Nfa} {found : Dfa} {id : Nat} {set : StateSet}

theorem initial_ne_empty (formed : automaton.WellFormed) : automaton.initial ≠ ∅ := by
  intro empty
  have member : automaton.start ∈ automaton.initial :=
    Nfa.mem_closure_iff.mpr ⟨automaton.start, List.mem_cons_self, .here formed.start_lt⟩
  simp [empty] at member

/-- From the state of a set a run reaches the state of the set that the simulation reaches, or
stops where that is empty. -/
theorem Simulates.run? (simulates : found.Simulates automaton) (known : found.sets[id]? = some set)
    (text : List Char) (occupied : set ≠ ∅) :
    found.run? id text = none ∧ text.foldl automaton.step set = ∅ ∨
      ∃ target, found.run? id text = some target ∧
        found.sets[target]? = some (text.foldl automaton.step set) ∧
          text.foldl automaton.step set ≠ ∅ := by
  induction text generalizing id set with
  | nil => exact .inr ⟨id, rfl, known, occupied⟩
  | cons c rest ih =>
    rw [Dfa.run?, List.foldl_cons]
    -- once the set is empty it stays empty, so stopping loses nothing
    obtain ⟨empty, stops⟩ | ⟨target, drawn, there, left⟩ := simulates.leads c known
    · rw [stops, empty, Nfa.foldl_step_empty]
      exact .inl ⟨rfl, rfl⟩
    · rw [drawn]
      exact ih there left

/-- For every compiled automaton the exploration gives a deterministic one. On each text this
accepts the same, ends in the state of the set that the simulation ends in, and stops early just
where that set is empty. -/
theorem ofNfa?_agrees (automaton : Nfa) (compiled : Compiled automaton) :
    ∃ found, ofNfa? automaton = some found ∧ ∀ text : String,
      found.accepts text = automaton.accepts text ∧
        (∀ id, found.run? start text.toList = some id →
          ∃ state, found.state? id = some state ∧ state.members = automaton.after text.toList) ∧
        (found.run? start text.toList = none ↔ automaton.after text.toList = ∅) := by
  have occupied := initial_ne_empty compiled.wellFormed
  obtain ⟨found, done, simulates⟩ := exists_ofNfa? occupied
  refine ⟨found, done, fun text => ?_⟩
  obtain ⟨stops, empty⟩ | ⟨target, ends, there, left⟩ :=
    simulates.run? simulates.first text.toList occupied
  · change automaton.after text.toList = ∅ at empty
    refine ⟨?_, fun id ends => ?_, iff_of_true stops empty⟩
    · rw [Nfa.accepts_eq_anyAccepting, empty, Nfa.anyAccepting_empty, accepts, start, stops]
      rfl
    · cases stops.symm.trans ends
  · change found.sets[target]? = some (automaton.after text.toList) at there
    refine ⟨?_, fun id same => ?_, iff_of_false ?_ left⟩
    · rw [Nfa.accepts_eq_anyAccepting, accepts, start, ends]
      exact simulates.accepting there
    · obtain rfl : target = id := Option.some.inj (ends.symm.trans same)
      rw [getElem?_sets] at there
      exact Option.map_eq_some_iff.mp there
    · rw [start, ends]
      exact Option.some_ne_none target

theorem ofNfa?_agrees_loop :
    ∃ found, ofNfa? (Nfa.literal 'a').star = some found ∧ found.accepts "aa" = true ∧
      found.run? start "aab".toList = none := by
  have compiled : Compiled (Nfa.literal 'a').star := .inl ⟨"a*", rfl⟩
  obtain ⟨found, done, agrees⟩ := ofNfa?_agrees _ compiled
  have accepted : (Nfa.literal 'a').star.accepts "aa" = true :=
    Nfa.mem_language_star_literal.mpr (by simp : ∀ d ∈ ['a', 'a'], d = 'a')
  have unused : 'b' ∉ (Nfa.literal 'a').star.alphabet := by decide +kernel
  have nothing : (Nfa.literal 'a').star.after "aab".toList = ∅ := Nfa.step_eq_empty unused
  exact ⟨found, done, (agrees "aa").1.trans accepted, (agrees "aab").2.2.mpr nothing⟩

end Dfa

end PatternAutomata
