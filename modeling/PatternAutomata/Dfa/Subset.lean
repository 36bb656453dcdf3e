import PatternAutomata.Dfa.Basic

/-! The deterministic automaton of the sets that a simulation passes through.

Sets are explored one after another, the one found last first. Each new set
becomes a state, and every set of states is found at most once, so exploration
ends when none of the finitely many is left.
-/

set_option autoImplicit false

namespace PatternAutomata

def StateSet.below : Nat → List StateSet
  | 0 => [∅]
  | bound + 1 => below bound ++ (below bound).map (·.insert bound)

theorem StateSet.mem_below {bound : Nat} {set : StateSet} (inside : ∀ id ∈ set, id < bound) :
    set ∈ below bound := by
  induction bound generalizing set with
  | zero =>
    have nothing : set = ∅ := Std.ExtTreeSet.ext_mem fun id =>
      ⟨fun member => absurd (inside id member) (Nat.not_lt_zero _), fun member => by simp at member⟩
    simp [below, nothing]
  | succ bound ih =>
    have rest : set.erase bound ∈ below bound := by
      apply ih
      intro id member
      rw [mem_erase] at member
      have limit := inside id member.2
      omega
    rw [below, List.mem_append, List.mem_map]
    by_cases last : bound ∈ set
    · refine Or.inr ⟨_, rest, Std.ExtTreeSet.ext_mem fun id => ?_⟩
      rw [mem_insert, mem_erase]
      constructor
      · rintro (rfl | member)
        · exact last
        · exact member.2
      · intro member
        by_cases same : bound = id
        · exact Or.inl same
        · exact Or.inr ⟨same, member⟩
    · refine Or.inl ?_
      have same : set.erase bound = set := Std.ExtTreeSet.ext_mem fun id => by
        rw [mem_erase]
        exact ⟨And.right, fun member => ⟨fun same => last (same ▸ member), member⟩⟩
      exact same ▸ rest

namespace Dfa

def undiscovered (automaton : Dfa) (bound : Nat) : Nat :=
  (StateSet.below bound).countP fun set => decide (set ∉ automaton.sets)

/-- An exploration under way: the states found, and the sets whose successors
are still to be looked at, latest first. -/
structure Exploration where
  found : Dfa
  waiting : List StateSet

def Exploration.discover (automaton : Nfa) (current : StateSet) (source : Nat)
    (exploration : Exploration) (c : Char) : Option Exploration :=
  let next := automaton.step current c
  -- where no continuation is left there is no transition
  if next.isEmpty then some exploration
  else
    let added := exploration.found.insert (.ofNfa automaton next)
    let waiting := if added.isNew then next :: exploration.waiting else exploration.waiting
    match added.automaton.connect source c added.id with
    | .ok found => some { found, waiting }
    | .error _ => none

def Exploration.visit (automaton : Nfa) (current : StateSet) (exploration : Exploration) :
    Option Exploration := do
  let source ← exploration.found.find? current
  automaton.alphabet.toList.foldlM (discover automaton current source) exploration

/-- Whether `later` has found more sets, or waits for the same ones. -/
def Exploration.Progress (bound : Nat) (earlier later : Exploration) : Prop :=
  later.found.undiscovered bound < earlier.found.undiscovered bound ∨
    later.found.undiscovered bound = earlier.found.undiscovered bound ∧
      later.waiting = earlier.waiting

theorem Exploration.Progress.trans {bound : Nat} {first second third : Exploration}
    (early : Progress bound first second) (late : Progress bound second third) :
    Progress bound first third := by
  rcases early with fewer | ⟨same, waiting⟩
  · rcases late with still | ⟨same, _⟩
    · exact Or.inl (Nat.lt_trans still fewer)
    · exact Or.inl (same ▸ fewer)
  · rcases late with fewer | ⟨later, unchanged⟩
    · exact Or.inl (same ▸ fewer)
    · exact Or.inr ⟨later.trans same, unchanged.trans waiting⟩

theorem undiscovered_lt {found later : Dfa} {set : StateSet} {bound : Nat}
    (inside : ∀ id ∈ set, id < bound) (unknown : set ∉ found.sets)
    (grown : later.sets = found.sets ++ [set]) :
    later.undiscovered bound < found.undiscovered bound := by
  refine StateSet.countP_lt_countP (StateSet.mem_below inside) ?_ ?_ ?_
  · simp [grown]
  · simpa using unknown
  · intro other
    simp only [grown, List.mem_append, not_or, decide_eq_true_eq]
    exact And.left

theorem Exploration.discover_cases {automaton : Nfa} {current : StateSet} {source : Nat}
    {earlier later : Exploration} {c : Char}
    (done : earlier.discover automaton current source c = some later) :
    automaton.step current c = ∅ ∧ later = earlier ∨
      ∃ added found, added = earlier.found.insert (.ofNfa automaton (automaton.step current c)) ∧
        added.automaton.connect source c added.id = .ok found ∧
        later = ⟨found, if added.isNew then automaton.step current c :: earlier.waiting
          else earlier.waiting⟩ := by
  simp only [discover] at done
  split at done
  · rename_i empty
    exact Or.inl ⟨Std.ExtTreeSet.isEmpty_iff.mp empty, (Option.some.inj done).symm⟩
  · split at done
    · rename_i found drawn
      exact Or.inr ⟨_, found, rfl, drawn, (Option.some.inj done).symm⟩
    · cases done

theorem Exploration.progress_of_discover {automaton : Nfa} {current : StateSet} {source : Nat}
    {earlier later : Exploration} {c : Char}
    (done : earlier.discover automaton current source c = some later) :
    Progress automaton.size earlier later := by
  rcases discover_cases done with ⟨_, rfl⟩ | ⟨_, linked, rfl, drawn, rfl⟩
  · exact Or.inr ⟨rfl, rfl⟩
  · have sets := sets_connect drawn
    by_cases known : (State.ofNfa automaton (automaton.step current c)).members ∈ earlier.found.sets
    · obtain ⟨same, old⟩ := insert_of_mem known
      refine Or.inr ⟨?_, by simp [old]⟩
      simp [undiscovered, sets, same]
    · refine Or.inl (undiscovered_lt Nfa.lt_of_mem_step known ?_)
      rw [sets]
      exact sets_insert_of_not_mem known

theorem Exploration.visit_induction {motive : Exploration → Prop} {automaton : Nfa}
    {current : StateSet} {earlier later : Exploration} (before : motive earlier)
    (step : ∀ {source : Nat} {c : Char} {middle next : Exploration}, motive middle →
      middle.discover automaton current source c = some next → motive next)
    (done : earlier.visit automaton current = some later) : motive later := by
  obtain ⟨source, here, rest⟩ := Option.bind_eq_some_iff.mp done
  clear here done
  generalize automaton.alphabet.toList = symbols at rest
  induction symbols generalizing earlier with
  | nil =>
    cases rest
    exact before
  | cons c symbols ih =>
    rw [List.foldlM_cons] at rest
    obtain ⟨middle, first, remaining⟩ := Option.bind_eq_some_iff.mp rest
    exact ih (step before first) remaining

theorem Exploration.progress_of_visit {automaton : Nfa} {current : StateSet}
    {earlier later : Exploration} (done : earlier.visit automaton current = some later) :
    Progress automaton.size earlier later := by
  refine visit_induction (Or.inr ⟨rfl, rfl⟩) ?_ done
  intro source c middle next progress found
  exact progress.trans (progress_of_discover found)

/-- Visit the waiting sets until there are none. Each visit finds a set that was
not known before, or leaves one set less to wait. -/
def Exploration.complete? (automaton : Nfa) (exploration : Exploration) : Option Dfa :=
  match _ : exploration.waiting with
  | [] => some exploration.found
  | current :: waiting =>
    match _ : Exploration.visit automaton current { exploration with waiting } with
    | none => none
    | some later => later.complete? automaton
termination_by (exploration.found.undiscovered automaton.size, exploration.waiting.length)
decreasing_by
  rename_i waits visited
  rcases Exploration.progress_of_visit visited with fewer | ⟨same, unchanged⟩
  · exact Prod.Lex.left _ _ fewer
  · rw [same, unchanged, waits]
    exact Prod.Lex.right _ (Nat.lt_succ_self _)

/-- The deterministic automaton that starts in the states before anything is
read. There is none if a waiting set has no state or a transition has no end. -/
def ofNfa? (automaton : Nfa) : Option Dfa :=
  Exploration.complete? automaton
    ⟨ofStart (.ofNfa automaton automaton.initial), [automaton.initial]⟩

end Dfa

end PatternAutomata
