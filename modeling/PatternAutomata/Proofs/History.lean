import PatternAutomata.Dfa.Keyed
import PatternAutomata.Proofs.StateTable

/-! What a state stands for, over every history of requests.

One request keeps all sets where they are and puts at most one new set behind
them. So a number keeps its set for good, no two numbers share one, and a table
that keeps every set twice never shows a difference between the two copies.
-/

set_option autoImplicit false

namespace PatternAutomata

namespace Dfa

/-! ## What one request does -/

def Edit.Alters : Edit → State → State → Prop
  | .connect c target, earlier, later =>
    later.members = earlier.members ∧ later.accepting = earlier.accepting ∧
      ∀ d, later.transitions[d]? = if c = d then some target else earlier.transitions[d]?
  | .mark accepting, earlier, later =>
    later.members = earlier.members ∧ later.transitions = earlier.transitions ∧
      later.accepting = accepting

theorem Edit.alters (edit : Edit) (state : State) : edit.Alters state (edit.apply state) := by
  cases edit with
  | connect c target =>
    refine ⟨rfl, rfl, fun d => ?_⟩
    simp only [apply, State.connect, Std.ExtTreeMap.getElem?_insert, Std.LawfulEqCmp.compare_eq_iff_eq]
  | mark accepting => exact ⟨rfl, rfl, rfl⟩

structure Altered (earlier later : Dfa) (id : Nat) (edit : Edit) : Prop where
  size : later.size = earlier.size
  others : ∀ other, other ≠ id → later.state? other = earlier.state? other
  here : ∃ before after, earlier.state? id = some before ∧ later.state? id = some after ∧
    edit.Alters before after

/-- What a request may answer, and what the automaton is then. -/
inductive Responds (automaton : Dfa) : Request → Dfa × Answer → Prop where
  | known {state present : State} {id : Nat} : automaton.state? id = some present →
      present.members = state.members →
      Responds automaton (.insert state) (automaton, .inserted id false)
  | fresh {state : State} {later : Dfa} : state.members ∉ automaton.sets →
      later.size = automaton.size + 1 →
      (∀ id < automaton.size, later.state? id = automaton.state? id) →
      later.state? automaton.size = some state →
      Responds automaton (.insert state) (later, .inserted automaton.size true)
  | noTarget {source : Nat} {c : Char} {target : Nat} : automaton.size ≤ target →
      Responds automaton (.connect source c target)
        (automaton, .refused { fault := .unknownState target })
  | noSource {source : Nat} {c : Char} {target : Nat} : target < automaton.size →
      automaton.size ≤ source →
      Responds automaton (.connect source c target)
        (automaton, .refused { fault := .unknownState source })
  | connected {source : Nat} {c : Char} {target : Nat} {later : Dfa} : target < automaton.size →
      Altered automaton later source (.connect c target) →
      Responds automaton (.connect source c target) (later, .done)
  | edited {id : Nat} {edit : Edit} {later : Dfa} : Altered automaton later id edit →
      Responds automaton (.edit id edit) (later, .done)
  | absent {id : Nat} {edit : Edit} : automaton.size ≤ id →
      Responds automaton (.edit id edit) (automaton, .absent)

variable {automaton later : Dfa} {state : State} {set : StateSet} {id source target : Nat} {c : Char}
  {edit : Edit} {request : Request} {outcome : Dfa × Answer}

theorem altered_modify (inside : id < automaton.size) :
    Altered automaton ⟨automaton.states.modify id edit.apply⟩ id edit := by
  refine ⟨Array.size_modify, ?_, ?_⟩
  · intro other apart
    simp [state?_modify, apart.symm]
  · obtain ⟨state, here⟩ := state?_of_lt inside
    refine ⟨state, edit.apply state, here, ?_, edit.alters state⟩
    simp [state?_modify, here]

theorem responds_insert : Responds automaton (.insert state) (automaton.respond (.insert state)) := by
  by_cases known : state.members ∈ automaton.sets
  · obtain ⟨id, found⟩ := Option.isSome_iff_exists.mp (find?_isSome_iff.mpr known)
    have entry := getElem?_of_find? found
    rw [getElem?_sets, Option.map_eq_some_iff] at entry
    obtain ⟨present, here, same⟩ := entry
    simp only [respond, insert, found]
    exact .known here same
  · rw [respond, insert_of_not_mem known]
    refine .fresh known (Array.size_push state) ?_ Array.getElem?_push_size
    intro id inside
    exact state?_push inside

theorem responds_connect :
    Responds automaton (.connect source c target) (automaton.respond (.connect source c target)) := by
  by_cases there : target < automaton.size
  · by_cases here : source < automaton.size
    · simp only [respond, connect_eq_ok here there]
      exact .connected there (@altered_modify automaton source (.connect c target) here)
    · simp only [respond, connect, if_pos there, update?_of_le (Nat.le_of_not_lt here)]
      exact .noSource there (Nat.le_of_not_lt here)
  · simp only [respond, connect, if_neg there]
    exact .noTarget (Nat.le_of_not_lt there)

theorem responds_edit : Responds automaton (.edit id edit) (automaton.respond (.edit id edit)) := by
  by_cases here : id < automaton.size
  · simp only [respond, update?_of_lt here]
    exact .edited (altered_modify here)
  · simp only [respond, update?_of_le (Nat.le_of_not_lt here)]
    exact .absent (Nat.le_of_not_lt here)

theorem responds_respond (automaton : Dfa) (request : Request) :
    Responds automaton request (automaton.respond request) := by
  cases request with
  | insert state => exact responds_insert
  | connect source c target => exact responds_connect
  | edit id edit => exact responds_edit

/-! ## What every request keeps -/

theorem Edit.Alters.members {before after : State} (alters : edit.Alters before after) :
    after.members = before.members := by
  cases edit <;> exact alters.1

theorem Altered.sets (altered : Altered automaton later id edit) : later.sets = automaton.sets := by
  apply List.ext_getElem?
  intro place
  rw [getElem?_sets, getElem?_sets]
  by_cases here : place = id
  · obtain ⟨before, after, earlier, now, alters⟩ := altered.here
    rw [here, earlier, now, Option.map_some, Option.map_some, alters.members]
  · rw [altered.others place here]

/-- At most one set is new, and it comes last. -/
theorem Responds.sets (responds : Responds automaton request outcome) :
    outcome.1.sets = automaton.sets ∨
      ∃ set, set ∉ automaton.sets ∧ outcome.1.sets = automaton.sets ++ [set] := by
  cases responds with
  | known => exact .inl rfl
  | @fresh state later unknown grown kept added =>
    refine .inr ⟨_, unknown, ?_⟩
    apply List.ext_getElem?
    intro place
    rw [getElem?_sets]
    rcases Nat.lt_trichotomy place automaton.size with inside | rfl | outside
    · rw [kept place inside, ← getElem?_sets,
        List.getElem?_append_left (length_sets.symm ▸ inside)]
    · rw [added, ← length_sets, List.getElem?_concat_length, Option.map_some]
    · have beyond : later.state? place = none :=
        Array.getElem?_eq_none (Nat.le_trans (Nat.le_of_eq grown) outside)
      rw [beyond, Option.map_none, List.getElem?_eq_none]
      rw [List.length_append, length_sets]
      exact outside
  | noTarget => exact .inl rfl
  | noSource => exact .inl rfl
  | connected _ altered => exact .inl altered.sets
  | edited altered => exact .inl altered.sets
  | absent => exact .inl rfl

theorem nodup_respond (distinct : automaton.sets.Nodup) :
    (automaton.respond request).1.sets.Nodup := by
  rcases (responds_respond automaton request).sets with same | ⟨set, unknown, grown⟩
  · rwa [same]
  · rw [grown, List.nodup_append]
    refine ⟨distinct, by simp, ?_⟩
    intro old present new added same
    rw [List.mem_singleton] at added
    exact unknown (added ▸ same ▸ present)

theorem sets_prefix_respond : automaton.sets <+: (automaton.respond request).1.sets := by
  rcases (responds_respond automaton request).sets with same | ⟨set, _, grown⟩
  · exact same ▸ List.prefix_rfl
  · rw [grown]
    exact List.prefix_append _ _

/-! ## What every history keeps -/

theorem eraseDups_eq_self {states : List State} (apart : (states.map (·.members)).Nodup) :
    states.eraseDups = states := by
  induction states with
  | nil => rfl
  | cons state rest ih =>
    obtain ⟨fresh, others⟩ := List.nodup_cons.mp apart
    have kept : rest.filter (fun other => !other == state) = rest := by
      refine List.filter_eq_self.mpr fun other member => ?_
      have unlike : (other.members == state.members) = false := beq_eq_false_iff_ne.mpr fun same =>
        fresh (List.mem_map.mpr ⟨other, member, same⟩)
      exact congrArg not unlike
    rw [List.eraseDups_cons, kept, ih others]

theorem nodup_after {requests : List Request} (distinct : automaton.sets.Nodup) :
    (automaton.after requests).sets.Nodup := by
  induction requests generalizing automaton with
  | nil => exact distinct
  | cons request rest ih => exact ih (nodup_respond distinct)

/-- No two states compare as equal. -/
theorem distinct_eq_size (apart : automaton.sets.Nodup) :
    Dfa.distinct automaton.states.toList = automaton.size := by
  rw [Dfa.distinct, eraseDups_eq_self apart, Array.length_toList, size]

theorem distinct_after (initial : State) (requests : List Request) :
    Dfa.distinct ((ofStart initial).after requests).states.toList =
      ((ofStart initial).after requests).size :=
  distinct_eq_size (nodup_after (List.pairwise_singleton _ _))

theorem sets_prefix_after {requests : List Request} :
    automaton.sets <+: (automaton.after requests).sets := by
  induction requests generalizing automaton with
  | nil => exact List.prefix_rfl
  | cons request rest ih => exact sets_prefix_respond.trans ih

theorem after_append {earlier rest : List Request} :
    automaton.after (earlier ++ rest) = (automaton.after earlier).after rest :=
  List.foldl_append

/-- Numbers and sets determine each other, and the set of the start state is at zero. -/
structure Identified (initial : StateSet) (automaton : Dfa) : Prop where
  numbered : ∀ id, (∃ state, automaton.state? id = some state) ↔ id < automaton.size
  distinct : automaton.sets.Nodup
  found : ∀ set id, automaton.find? set = some id ↔
    ∃ state, automaton.state? id = some state ∧ state.members = set
  started : ∃ state, automaton.state? start = some state ∧ state.members = initial

theorem identified_of_nodup {initial : StateSet} (distinct : automaton.sets.Nodup)
    (first : [initial] <+: automaton.sets) : Identified initial automaton := by
  have behind : ∀ set id, automaton.sets[id]? = some set ↔
      ∃ state, automaton.state? id = some state ∧ state.members = set := by
    intro set id
    rw [getElem?_sets, Option.map_eq_some_iff]
  refine ⟨fun id => ⟨?_, state?_of_lt⟩, distinct, fun set id => ?_, ?_⟩
  · rintro ⟨state, here⟩
    exact (Array.getElem?_eq_some_iff.mp here).1
  · rw [find?_eq_some_iff distinct, behind]
  · obtain ⟨rest, grown⟩ := first
    rw [← behind, ← grown]
    rfl

/-! ## The set written twice -/

def keyed (automaton : Dfa) : Keyed := ⟨automaton.states.map fun state => ⟨state.members, state⟩⟩

@[simp] theorem size_keyed : automaton.keyed.size = automaton.size := Array.size_map

theorem state?_keyed : automaton.keyed.state? id = automaton.state? id := by
  simp [keyed, Keyed.state?, state?, Function.comp_def]

theorem find?_keyed : automaton.keyed.find? set = automaton.find? set := by
  rw [keyed, Keyed.find?, Array.findIdx?_map]
  rfl

theorem edit?_keyed :
    automaton.keyed.edit? id edit = (automaton.update? id edit.apply).map keyed := by
  rw [Keyed.edit?, update?, size_keyed]
  split
  · rw [Option.map_some]
    congr 2
    apply Array.ext_getElem?
    intro place
    simp only [keyed, Array.getElem?_map, Array.getElem?_modify]
    split
    · simp [Entry.edit, Edit.members_apply, Function.comp_def]
    · rfl
  · rfl

theorem respond_keyed (automaton : Dfa) (request : Request) :
    automaton.keyed.respond request =
      ((automaton.respond request).1.keyed, (automaton.respond request).2) := by
  cases request with
  | insert state =>
    simp only [Keyed.respond, respond, insert, find?_keyed]
    cases automaton.find? state.members with
    | some id => rfl
    | none => simp [keyed, size, Keyed.size]
  | connect source c target =>
    have drawn : automaton.keyed.edit? source (.connect c target) =
        (automaton.update? source (·.connect c target)).map keyed := edit?_keyed
    simp only [Keyed.respond, respond, connect, size_keyed, drawn]
    split
    · cases automaton.update? source (·.connect c target) <;> rfl
    · rfl
  | edit id edit =>
    simp only [Keyed.respond, respond, edit?_keyed]
    cases automaton.update? id edit.apply <;> rfl

theorem after_keyed {requests : List Request} :
    automaton.keyed.after requests = (automaton.after requests).keyed := by
  induction requests generalizing automaton with
  | nil => rfl
  | cons request rest ih =>
    have step : (automaton.keyed.respond request).1 = (automaton.respond request).1.keyed := by
      rw [respond_keyed]
    exact (congrArg (Keyed.after · rest) step).trans ih

/-- The table has each set of the automaton twice, and nobody who asks can tell the two apart. -/
structure Keyed.Agrees (table : Keyed) (automaton : Dfa) : Prop where
  entries : table = automaton.keyed
  size : table.size = automaton.size
  state : ∀ id, table.state? id = automaton.state? id
  found : ∀ set, table.find? set = automaton.find? set
  answer : ∀ request, (table.respond request).2 = (automaton.respond request).2

theorem agrees_keyed (automaton : Dfa) : automaton.keyed.Agrees automaton where
  entries := rfl
  size := size_keyed
  state _ := state?_keyed
  found _ := find?_keyed
  answer request := by rw [respond_keyed]

/-- Over every history of requests, numbers and sets determine each other, no number ever changes its
set, and each request alters only what it names. Keeping every set twice makes no difference. -/
theorem history_keeps_identity (initial : State) (requests : List Request) :
    Identified initial.members ((ofStart initial).after requests) ∧
      (∀ rest, ((ofStart initial).after requests).sets <+:
        ((ofStart initial).after (requests ++ rest)).sets) ∧
      (∀ request, Responds ((ofStart initial).after requests) request
        (((ofStart initial).after requests).respond request)) ∧
      ((Keyed.ofStart initial).after requests).Agrees ((ofStart initial).after requests) := by
  refine ⟨?_, ?_, ?_, ?_⟩
  · have distinct : (ofStart initial).sets.Nodup := by simp
    have first : (ofStart initial).sets <+: ((ofStart initial).after requests).sets :=
      sets_prefix_after
    rw [sets_ofStart] at first
    exact identified_of_nodup (nodup_after distinct) first
  · intro rest
    rw [after_append]
    exact sets_prefix_after
  · intro request
    exact responds_respond _ request
  · have table : Keyed.ofStart initial = (ofStart initial).keyed := by simp [Keyed.ofStart, ofStart, keyed]
    rw [table, after_keyed]
    exact agrees_keyed _

end Dfa

end PatternAutomata
