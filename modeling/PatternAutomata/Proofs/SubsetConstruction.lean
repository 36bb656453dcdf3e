import PatternAutomata.Proofs.CheckedArena
import PatternAutomata.Proofs.Determinization

/-! The exploration turn by turn.

A turn takes the set found last and looks at all its successors. Each set found
waits once, so there are as many turns as states in the end. What a turn leaves
to do is the invariant of the exploration, and that is enough for the next one
to find the state of its set and both ends of every transition.
-/

set_option autoImplicit false

namespace PatternAutomata

namespace Dfa

namespace Exploration

def start (automaton : Nfa) : Exploration :=
  ⟨ofStart (.ofNfa automaton automaton.initial), [automaton.initial]⟩

/-- What an exploration becomes in exactly so many turns, none of which fails. -/
inductive Turns (automaton : Nfa) : Nat → Exploration → Exploration → Prop
  | none {exploration : Exploration} : Turns automaton 0 exploration exploration
  | turn {turns : Nat} {found : Dfa} {current : StateSet} {waiting : List StateSet}
      {middle later : Exploration} :
      visit automaton current ⟨found, waiting⟩ = some middle → Turns automaton turns middle later →
        Turns automaton (turns + 1) ⟨found, current :: waiting⟩ later

/-- A visit to the set misses nothing: the set has a state, and whenever a transition from it is
drawn both of its ends exist. -/
def Visitable (automaton : Nfa) (current : StateSet) (exploration : Exploration) : Prop :=
  ∃ source, exploration.found.find? current = some source ∧
    ∀ done c todo, automaton.alphabet.toList = done ++ c :: todo →
      ∃ middle, done.foldlM (discover automaton current source) exploration = some middle ∧
        (automaton.step current c ≠ ∅ →
          let added := middle.found.insert (.ofNfa automaton (automaton.step current c))
          ∃ found, added.automaton.connect source c added.id = .ok found)

variable {automaton : Nfa} {current next : StateSet} {exploration earlier later : Exploration}
  {c : Char} {source turns : Nat} {found : Dfa} {waiting : List StateSet}

/-! ## Every state waits once -/

theorem size_add :
    (exploration.add automaton next).found.size + exploration.waiting.length =
      exploration.found.size + (exploration.add automaton next).waiting.length := by
  by_cases member : next ∈ exploration.found.sets
  · rw [add_of_mem member]
  · rw [waiting_add_of_not_mem member, ← length_sets, sets_add_of_not_mem member,
      List.length_append, length_sets, List.length_singleton, List.length_cons]
    omega

theorem size_discover (done : earlier.discover automaton current source c = some later) :
    later.found.size + earlier.waiting.length = earlier.found.size + later.waiting.length := by
  rcases discover_cases done with ⟨_, rfl⟩ | ⟨_, found, rfl, drawn, rfl⟩
  · rfl
  · have same : found.size = (earlier.add automaton (automaton.step current c)).found.size := by
      rw [← length_sets, sets_connect drawn, length_sets]
      rfl
    rw [same]
    exact size_add

theorem size_visit (done : earlier.visit automaton current = some later) :
    later.found.size + earlier.waiting.length = earlier.found.size + later.waiting.length := by
  apply visit_induction (motive := fun reached => reached.found.size + earlier.waiting.length =
    earlier.found.size + reached.waiting.length) rfl _ done
  intro source c middle next balance found
  have step := size_discover found
  omega

namespace Turns

/-- A turn takes one set from those that wait, so the states found and the sets still waiting tell
how many turns there were. -/
theorem size_eq (run : Turns automaton turns earlier later) :
    later.found.size + earlier.waiting.length =
      earlier.found.size + later.waiting.length + turns := by
  induction run with
  | none => rfl
  | turn visited _ ih =>
    have step := size_visit visited
    simp only [List.length_cons] at step ih ⊢
    omega

/-! ## Every turn succeeds -/

theorem charted (run : Turns automaton turns earlier later)
    (before : ∃ last, earlier.Charted automaton last []) : ∃ last, later.Charted automaton last [] := by
  induction run with
  | none => exact before
  | turn visited _ ih =>
    obtain ⟨last, before⟩ := before
    obtain ⟨middle, done, after⟩ := before.visit
    obtain rfl := Option.some.inj (visited.symm.trans done)
    exact ih ⟨_, after⟩

theorem complete?_eq (run : Turns automaton turns earlier later) :
    earlier.complete? automaton = later.complete? automaton := by
  induction run with
  | none => rfl
  | turn visited _ ih =>
    rw [complete?, ← ih]
    dsimp only
    split
    · rename_i stuck
      cases stuck.symm.trans visited
    · rename_i reached
      obtain rfl := Option.some.inj (reached.symm.trans visited)
      rfl

theorem of_complete? (done : exploration.complete? automaton = some found) :
    ∃ turns, Turns automaton turns exploration ⟨found, []⟩ := by
  fun_induction exploration.complete? automaton with
  | case1 exploration finished =>
    obtain ⟨known, waiting⟩ := exploration
    subst finished
    obtain rfl := Option.some.inj done
    exact ⟨0, .none⟩
  | case2 exploration next waiting waits stuck => cases done
  | case3 exploration next waiting waits later visited ih =>
    obtain ⟨known, _⟩ := exploration
    subst waits
    obtain ⟨turns, rest⟩ := ih done
    exact ⟨turns + 1, .turn visited rest⟩

end Turns

theorem Charted.visitable {last : StateSet}
    (charted : Charted automaton last [] ⟨found, current :: waiting⟩) :
    Visitable automaton current ⟨found, waiting⟩ := by
  have member : current ∈ found.sets := charted.known current List.mem_cons_self
  obtain ⟨source, here⟩ := Option.isSome_iff_exists.mp (find?_isSome_iff.mpr member)
  refine ⟨source, here, fun done c todo split => ?_⟩
  have once : (done ++ c :: todo).Nodup := split ▸ Nfa.nodup_alphabet
  have popped : current ∉ waiting := (List.nodup_cons.mp charted.once).1
  obtain ⟨middle, drawn, charted, here, popped⟩ :=
    (split ▸ charted.pop).foldlM_discover (getElem?_of_find? here) popped once
  refine ⟨middle, drawn, fun occupied => ?_⟩
  have last : c ∉ todo := (List.nodup_cons.mp (List.nodup_append.mp once).2.1).1
  obtain ⟨_, done, _⟩ := charted.discover here popped last
  rcases discover_cases done with ⟨empty, _⟩ | ⟨_, found, rfl, linked, _⟩
  · exact absurd empty occupied
  · exact ⟨found, linked⟩

end Exploration

/-! ## The automaton found -/

variable {automaton : Nfa} {found : Dfa} {set : StateSet} {id : Nat} {state : State} {c : Char}

theorem Simulates.mem_sets_iff (simulates : found.Simulates automaton)
    (occupied : automaton.initial ≠ ∅) :
    set ∈ found.sets ↔ set ≠ ∅ ∧ ∃ text : String, automaton.after text.toList = set := by
  constructor
  · intro member
    obtain ⟨left, text, reached⟩ := simulates.reached set member
    exact ⟨left, String.ofList text, by rw [String.toList_ofList, reached]⟩
  · rintro ⟨left, text, rfl⟩
    rcases simulates.run? simulates.first text.toList occupied with ⟨_, empty⟩ | ⟨target, _, there, _⟩
    · exact absurd empty left
    · exact List.mem_of_getElem? there

theorem Simulates.transitions (simulates : found.Simulates automaton)
    (known : found.state? id = some state) (c : Char) :
    (automaton.step state.members c ≠ ∅ →
        ∃ target, found.find? (automaton.step state.members c) = some target ∧
          state.transitions[c]? = some target) ∧
      (automaton.step state.members c = ∅ → state.transitions[c]? = none) := by
  have here : found.sets[id]? = some state.members := by rw [getElem?_sets, known, Option.map_some]
  have next : found.next? id c = state.transitions[c]? := by rw [next?, known, Option.bind_some]
  rcases simulates.leads c here with ⟨empty, stops⟩ | ⟨target, drawn, there, left⟩
  · exact ⟨fun left => absurd empty left, fun _ => next ▸ stops⟩
  · exact ⟨fun _ => ⟨target, (find?_eq_some_iff simulates.distinct).mpr there, next ▸ drawn⟩,
      fun empty => absurd empty left⟩

theorem Simulates.accepting_iff (simulates : found.Simulates automaton)
    (formed : automaton.WellFormed) (known : found.state? id = some state) :
    state.accepting = true ↔ automaton.accept ∈ state.members := by
  have here : found.sets[id]? = some state.members := by rw [getElem?_sets, known, Option.map_some]
  have flag := simulates.accepting here
  rw [isAccepting, known, Option.any_some] at flag
  rw [flag, formed.anyAccepting_iff]

/-- Exploring a compiled automaton ends after one turn for each state, misses nothing on any turn,
and finds just the sets that some text leads to. Their states lead to each other as the sets do on
every character. -/
theorem exploration_finds_reachable_sets (automaton : Nfa) (compiled : Compiled automaton) :
    ∃ found, ofNfa? automaton = some found ∧
      (∀ ids, automaton.closure? ids = some (automaton.closure ids)) ∧
      (∀ turns exploration, Exploration.Turns automaton turns (.start automaton) exploration →
        (∃ left, Exploration.Turns automaton left exploration ⟨found, []⟩ ∧
          turns + left = found.size) ∧
        ∀ current waiting, exploration.waiting = current :: waiting →
          Exploration.Visitable automaton current ⟨exploration.found, waiting⟩) ∧
      found.sets.Nodup ∧
      (∀ set, set ∈ found.sets ↔ set ≠ ∅ ∧ ∃ text : String, automaton.after text.toList = set) ∧
      found.sets[start]? = some (automaton.closure [automaton.start]) ∧
      ∀ id state, found.state? id = some state →
        (∀ c, (automaton.step state.members c ≠ ∅ →
            ∃ target, found.find? (automaton.step state.members c) = some target ∧
              state.transitions[c]? = some target) ∧
          (automaton.step state.members c = ∅ → state.transitions[c]? = none)) ∧
        (state.accepting = true ↔ automaton.accept ∈ state.members) := by
  have formed := compiled.wellFormed
  have occupied := initial_ne_empty formed
  obtain ⟨found, done, simulates⟩ := exists_ofNfa? occupied
  refine ⟨found, done, formed.closure?_eq_some, fun turns exploration run => ⟨?_, ?_⟩,
    simulates.distinct, fun set => simulates.mem_sets_iff occupied, simulates.first,
    fun id state known => ⟨simulates.transitions known, simulates.accepting_iff formed known⟩⟩
  · have rest : exploration.complete? automaton = some found := run.complete?_eq.symm.trans done
    obtain ⟨left, finish⟩ := Exploration.Turns.of_complete? rest
    have early := run.size_eq
    have late := finish.size_eq
    have one : (Exploration.start automaton).found.size = 1 := rfl
    have single : (Exploration.start automaton).waiting.length = 1 := rfl
    simp only [List.length_nil] at late
    exact ⟨left, finish, by omega⟩
  · intro current waiting waits
    obtain ⟨last, charted⟩ := run.charted ⟨_, .start occupied⟩
    obtain ⟨found, _⟩ := exploration
    subst waits
    exact charted.visitable

/-- The set behind one letter is found again behind two, so its state leads to itself. -/
theorem exploration_finds_reachable_sets_loop :
    Compiled (Nfa.literal 'a').star ∧ ∃ found, ofNfa? (Nfa.literal 'a').star = some found ∧
      Exploration.Turns (Nfa.literal 'a').star found.size (.start (Nfa.literal 'a').star)
        ⟨found, []⟩ ∧
      ∃ id state, found.find? ((Nfa.literal 'a').star.after "a".toList) = some id ∧
        found.state? id = some state ∧ state.transitions['a']? = some id := by
  have compiled : Compiled (Nfa.literal 'a').star := .inl ⟨"a*", rfl⟩
  obtain ⟨found, done, _, turns, _, reached, _, rows⟩ := exploration_finds_reachable_sets _ compiled
  obtain ⟨⟨left, run, total⟩, _⟩ := turns 0 _ .none
  have size : (Nfa.literal 'a').star.size = 4 := rfl
  have entry : (Nfa.literal 'a').star.start = 2 := rfl
  have around : (Nfa.literal 'a').star.targets 2 none = [3, 0] := by decide
  have back : (Nfa.literal 'a').star.targets 1 none = [3, 0] := by decide
  have body : (Nfa.literal 'a').star.targets 0 none = [] := by decide
  have exit : (Nfa.literal 'a').star.targets 3 none = [] := by decide
  have before : (Nfa.literal 'a').star.initial = ((∅ : StateSet).insert 2 |>.insert 3 |>.insert 0) := by
    rw [Nfa.initial, Nfa.closure, size, entry]
    simp [reach, around, body, exit]
  have behind : (Nfa.literal 'a').star.closure [1] = ((∅ : StateSet).insert 1 |>.insert 3 |>.insert 0) := by
    rw [Nfa.closure, size]
    simp [reach, back, body, exit]
  -- the edge that reads the letter leads to the same state from either set
  have one : (Nfa.literal 'a').star.after "a".toList = (Nfa.literal 'a').star.closure [1] := by
    change (Nfa.literal 'a').star.step (Nfa.literal 'a').star.initial 'a' = _
    rw [before]
    rfl
  have again : (Nfa.literal 'a').star.step ((Nfa.literal 'a').star.after "a".toList) 'a' =
      (Nfa.literal 'a').star.after "a".toList := by
    rw [one]
    nth_rewrite 1 [behind]
    rfl
  have occupied : (Nfa.literal 'a').star.after "a".toList ≠ ∅ := by
    rw [one, behind]
    simp
  obtain ⟨id, here⟩ := Option.isSome_iff_exists.mp
    (find?_isSome_iff.mpr ((reached _).mpr ⟨occupied, "a", rfl⟩))
  have there := getElem?_of_find? here
  rw [getElem?_sets] at there
  obtain ⟨state, known, same⟩ := Option.map_eq_some_iff.mp there
  have row := ((rows id state known).1 'a').1
  rw [same, again] at row
  obtain ⟨target, returns, drawn⟩ := row occupied
  obtain rfl : id = target := Option.some.inj (here.symm.trans returns)
  refine ⟨compiled, found, done, ?_, id, state, here, known, drawn⟩
  rwa [← total, Nat.zero_add]

end Dfa

end PatternAutomata
