import Mathlib.Logic.Relation
import PatternAutomata.Proofs.CheckedArena
import PatternAutomata.Proofs.PathSemantics

/-! The closure along silent edges is what they reach.

Each turn of the search takes one number from the queue, and no number waits
twice. So the search ends after one turn for each state it finds, cycles or not,
and what it finds does not depend on how the sources are listed.
-/

set_option autoImplicit false

namespace PatternAutomata

namespace Nfa

variable {automaton : Nfa} {ids others : List Nat} {source target id : Nat} {c : Char}

def Silent (automaton : Nfa) (near far : Nat) : Prop := automaton.HasEdge near none far

theorem Confined.path_nil_iff (confined : automaton.Confined) :
    automaton.Path source [] target ↔
      source < automaton.size ∧ Relation.ReflTransGen automaton.Silent source target := by
  constructor
  · intro path
    refine ⟨path.source_lt, ?_⟩
    generalize quiet : ([] : List Char) = text at path
    induction path with
    | here _ => exact .refl
    | silent edge _ ih => exact .head edge (ih quiet)
    | read _ _ _ => cases quiet
  · intro ⟨inside, chain⟩
    induction chain with
    | refl => exact .here inside
    | tail _ edge before => exact before.append (.silent edge (.here (confined _ _ _ edge)))

/-! ## The search turn by turn -/

namespace Search

def start (automaton : Nfa) (ids : List Nat) : Search :=
  noteAll ⟨∅, []⟩ (ids.filter (· < automaton.size))

/-- What a search becomes in exactly so many turns, each of which finds the state it asks for. -/
inductive Turns (automaton : Nfa) : Nat → Search → Search → Prop
  | none {search : Search} : Turns automaton 0 search search
  | turn {turns id : Nat} {noted : StateSet} {queue : List Nat} {state : State} {later : Search} :
      automaton.state? id = some state →
        Turns automaton turns (noteAll ⟨noted, queue⟩ (state.targets none)) later →
          Turns automaton (turns + 1) ⟨noted, id :: queue⟩ later

variable {search earlier later : Search} {found : StateSet} {turns : Nat}

/-- What is noted and does not wait stays the same in number. -/
theorem size_note :
    (search.note id).noted.size + search.queue.length =
      search.noted.size + (search.note id).queue.length := by
  by_cases known : id ∈ search.noted
  · rw [note, if_pos known]
  · have more : (search.noted.insert id).size = search.noted.size + 1 :=
      Std.ExtTreeSet.size_insert.trans (if_neg known)
    rw [note, if_neg known, more, List.length_append, List.length_singleton]
    omega

theorem size_noteAll :
    (search.noteAll ids).noted.size + search.queue.length =
      search.noted.size + (search.noteAll ids).queue.length := by
  induction ids generalizing search with
  | nil => rfl
  | cons head rest ih =>
    have first := @size_note head search
    have later := @ih (search.note head)
    change ((search.note head).noteAll rest).noted.size + _ =
      _ + ((search.note head).noteAll rest).queue.length
    omega

namespace Turns

theorem size_eq (run : Turns automaton turns earlier later) :
    later.noted.size + earlier.queue.length =
      earlier.noted.size + later.queue.length + turns := by
  induction run with
  | none => rfl
  | @turn turns id noted queue state later _ _ ih =>
    have step := @size_noteAll (state.targets .none) ⟨noted, queue⟩
    simp only [List.length_cons] at step ih ⊢
    omega

theorem run?_eq (run : Turns automaton turns earlier later) :
    earlier.run? automaton = later.run? automaton := by
  induction run with
  | none => rfl
  | turn found _ ih =>
    rw [run?, ← ih]
    dsimp only
    split
    · rename_i missing
      cases missing.symm.trans found
    · rename_i state known
      obtain rfl := Option.some.inj (known.symm.trans found)
      rfl

theorem of_run? (done : search.run? automaton = some found) :
    ∃ turns, Turns automaton turns search ⟨found, []⟩ := by
  fun_induction run? automaton search with
  | case1 search finished =>
    obtain ⟨noted, _⟩ := search
    subst finished
    obtain rfl := Option.some.inj done
    exact ⟨0, .none⟩
  | case2 search id queue waits missing => cases done
  | case3 search id queue waits state known ih =>
    obtain ⟨noted, _⟩ := search
    subst waits
    obtain ⟨turns, rest⟩ := ih done
    exact ⟨turns + 1, .turn known rest⟩

/-- Whatever turns were made, the search goes on to its end, and takes one turn for each number it
finds in all. -/
theorem complete (run : Turns automaton turns (start automaton ids) search)
    (done : automaton.closure? ids = some found) :
    ∃ left, Turns automaton left search ⟨found, []⟩ ∧ turns + left = found.size := by
  obtain ⟨left, rest⟩ := of_run? (run.run?_eq.symm.trans done)
  have balance := @size_noteAll (ids.filter (· < automaton.size)) ⟨∅, []⟩
  have early := run.size_eq
  have late := rest.size_eq
  simp only [start, Std.ExtTreeSet.size_empty, List.length_nil] at balance early late
  exact ⟨left, rest, by omega⟩

end Turns

end Search

/-! ## Laws of the closure -/

theorem closure_mono (known : ∀ id ∈ ids, id < automaton.size → id ∈ others) :
    ∀ id ∈ automaton.closure ids, id ∈ automaton.closure others := by
  intro id member
  obtain ⟨source, given, path⟩ := mem_closure_iff.mp member
  exact mem_closure_iff.mpr ⟨source, known source given path.source_lt, path⟩

theorem closure_congr (same : ∀ id < automaton.size, id ∈ ids ↔ id ∈ others) :
    automaton.closure ids = automaton.closure others :=
  Std.ExtTreeSet.ext_mem fun id =>
    ⟨closure_mono (fun other given inside => (same other inside).mp given) id,
      closure_mono (fun other given inside => (same other inside).mpr given) id⟩

theorem closure_closure :
    automaton.closure (automaton.closure ids).toList = automaton.closure ids := by
  refine Std.ExtTreeSet.ext_mem fun id => ⟨fun member => ?_, fun member => ?_⟩
  · obtain ⟨source, found, path⟩ := mem_closure_iff.mp member
    exact closure_closed (Std.ExtTreeSet.mem_toList.mp found) path
  · exact mem_closure_iff.mpr
      ⟨id, Std.ExtTreeSet.mem_toList.mpr member, .here (lt_of_mem_closure id member)⟩

theorem closure_append :
    automaton.closure (ids ++ others) = automaton.closure ids ∪ automaton.closure others := by
  refine Std.ExtTreeSet.ext_mem fun id => ?_
  simp only [Std.ExtTreeSet.mem_union_iff, mem_closure_iff, List.mem_append, or_and_right, exists_or]

/-- On an automaton whose edges stay inside, with silent cycles or without, the search ends after one
turn for each state that it finds, and it finds what silent edges lead to from those of the
numbers that belong to a state. Their order and repetitions make no difference, more of them lead to
no less, what is found leads to nothing else, and two lists together to what each of them
leads to. A step is one edge with its character and silent edges behind it. -/
theorem closure_is_silent_reach (automaton : Nfa) (confined : automaton.Confined) :
    (∀ ids, automaton.closure? ids = some (automaton.closure ids) ∧
        (∀ turns search, Search.Turns automaton turns (.start automaton ids) search →
          ∃ left, Search.Turns automaton left search ⟨automaton.closure ids, []⟩ ∧
            turns + left = (automaton.closure ids).size) ∧
        ∀ target, target ∈ automaton.closure ids ↔
          ∃ source ∈ ids, source < automaton.size ∧
            Relation.ReflTransGen automaton.Silent source target) ∧
      (∀ ids others,
        ((∀ id < automaton.size, id ∈ ids ↔ id ∈ others) →
          automaton.closure ids = automaton.closure others) ∧
        ((∀ id ∈ ids, id < automaton.size → id ∈ others) →
          ∀ id ∈ automaton.closure ids, id ∈ automaton.closure others) ∧
        automaton.closure (ids ++ others) = automaton.closure ids ∪ automaton.closure others) ∧
      (∀ ids, automaton.closure (automaton.closure ids).toList = automaton.closure ids) ∧
      ∀ (current : StateSet) (c : Char),
        automaton.closure? (current.toList.flatMap (automaton.targets · (some c))) =
            some (automaton.step current c) ∧
          (∀ target, target ∈ automaton.step current c ↔
            ∃ near ∈ current, ∃ far, automaton.HasEdge near (some c) far ∧
              Relation.ReflTransGen automaton.Silent far target) ∧
          automaton.closure (automaton.step current c).toList = automaton.step current c := by
  refine ⟨fun ids => ?_, fun ids others => ⟨closure_congr, closure_mono, closure_append⟩,
    fun ids => closure_closure, fun current c => ?_⟩
  · have done := confined.closure?_eq_some ids
    refine ⟨done, fun turns search run => run.complete done, fun target => ?_⟩
    simp only [mem_closure_iff, confined.path_nil_iff]
  · refine ⟨confined.closure?_eq_some _, fun target => ?_, closure_closure⟩
    rw [mem_step_iff]
    constructor
    · intro ⟨near, member, far, edge, path⟩
      exact ⟨near, member, far, edge, (confined.path_nil_iff.mp path).2⟩
    · intro ⟨near, member, far, edge, chain⟩
      exact ⟨near, member, far, edge, confined.path_nil_iff.mpr ⟨confined _ _ _ edge, chain⟩⟩

/-- Around this cycle the search comes back to where it began. -/
theorem closure_is_silent_reach_cycle :
    empty.plus.Confined ∧
      (empty.plus.Silent 2 1 ∧ empty.plus.Silent 1 0 ∧ empty.plus.Silent 0 2) ∧
      empty.plus.closure? [7, 2, 2] = some (empty.plus.closure [2]) ∧
      0 ∈ empty.plus.closure [2] := by
  have confined : empty.plus.Confined := wellFormed_empty.plus.confined
  have back : empty.plus.Silent 2 1 := ⟨_, rfl, by decide⟩
  have enter : empty.plus.Silent 1 0 := ⟨_, rfl, by decide⟩
  have leave : empty.plus.Silent 0 2 := ⟨_, rfl, by decide⟩
  obtain ⟨search, laws, _⟩ := closure_is_silent_reach empty.plus confined
  have once : empty.plus.closure [7, 2, 2] = empty.plus.closure [2] := by
    refine (laws [7, 2, 2] [2]).1 fun id inside => ?_
    have unknown : id ≠ 7 := fun same => absurd (same ▸ inside) (by decide)
    simp [unknown]
  refine ⟨confined, ⟨back, enter, leave⟩, once ▸ (search [7, 2, 2]).1, ?_⟩
  exact ((search [2]).2.2 0).mpr ⟨2, List.mem_cons_self, by decide, .tail (.single back) enter⟩

end Nfa

end PatternAutomata
