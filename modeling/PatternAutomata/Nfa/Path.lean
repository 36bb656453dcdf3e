import PatternAutomata.Nfa.Basic

/-! Paths through an automaton, and the shape that automata have.

A path spells the labels of its edges in order. Nothing here depends on how an
automaton is run.
-/

set_option autoImplicit false

namespace PatternAutomata

namespace Nfa

def edges (automaton : Nfa) : List Edge := automaton.states.toList.flatMap (·.edges)

def HasEdge (automaton : Nfa) (source : Nat) (label : Option Char) (target : Nat) : Prop :=
  ∃ state, automaton.state? source = some state ∧ ⟨label, target⟩ ∈ state.edges

/-- The state `target` is reachable from `source` by edges that spell `text`. -/
inductive Path (automaton : Nfa) : Nat → List Char → Nat → Prop where
  | here {id : Nat} : id < automaton.size → Path automaton id [] id
  | silent {source middle target : Nat} {text : List Char} :
      automaton.HasEdge source none middle → Path automaton middle text target →
      Path automaton source text target
  | read {source middle target : Nat} {c : Char} {text : List Char} :
      automaton.HasEdge source (some c) middle → Path automaton middle text target →
      Path automaton source (c :: text) target

/-- States carry their own number, all edges stay inside the automaton, and the
accept state is the only one with the accepting flag. -/
structure WellFormed (automaton : Nfa) : Prop where
  start_lt : automaton.start < automaton.size
  accept_lt : automaton.accept < automaton.size
  id_eq : ∀ {id : Nat} {state : State}, automaton.state? id = some state → state.id = id
  target_lt : ∀ {source target : Nat} {label : Option Char},
    automaton.HasEdge source label target → target < automaton.size
  accepting_iff : ∀ {id : Nat} {state : State},
    automaton.state? id = some state → (state.accepting = true ↔ id = automaton.accept)

theorem mem_targets_iff {automaton : Nfa} {source target : Nat} {label : Option Char} :
    target ∈ automaton.targets source label ↔ automaton.HasEdge source label target := by
  cases found : automaton.state? source with
  | none => simp [targets, HasEdge, found]
  | some state =>
    simp only [targets, HasEdge, found, State.targets, Option.map_some, Option.getD_some,
      List.mem_map, List.mem_filter, decide_eq_true_eq, Option.some.injEq, exists_eq_left']
    constructor
    · rintro ⟨⟨_, _⟩, ⟨member, rfl⟩, rfl⟩
      exact member
    · intro member
      exact ⟨_, ⟨member, rfl⟩, rfl⟩

end Nfa

end PatternAutomata
