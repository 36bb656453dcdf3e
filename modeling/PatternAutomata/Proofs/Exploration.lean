import Mathlib.Data.List.Nodup
import PatternAutomata.Dfa.Subset
import PatternAutomata.Proofs.PathSemantics
import PatternAutomata.Proofs.StateTable

/-! What holds at every moment of an exploration.

A set that waits has a state without transitions. A set that was visited leads
to the successors of its states on every character, and the set being visited
does so except on the characters still to do. Adding a state and drawing a
transition both keep this, so an exploration is never stuck.
-/

set_option autoImplicit false

namespace PatternAutomata

namespace Dfa

def Leads (found : Dfa) (id : Nat) (c : Char) (next : StateSet) : Prop :=
  (next = ∅ ∧ found.next? id c = none) ∨
    ∃ target, found.next? id c = some target ∧ found.sets[target]? = some next ∧ next ≠ ∅

def Exploration.Undrawn (exploration : Exploration) (current : StateSet) (todo : List Char)
    (set : StateSet) (c : Char) : Prop :=
  set ∈ exploration.waiting ∨ set = current ∧ c ∈ todo

/-- The exploration is correct as far as it went: only the sets that wait, and `current` on the
characters in `todo`, lack their transitions. -/
structure Exploration.Charted (automaton : Nfa) (current : StateSet) (todo : List Char)
    (exploration : Exploration) : Prop where
  distinct : exploration.found.sets.Nodup
  first : exploration.found.sets[0]? = some automaton.initial
  accepting : ∀ {id : Nat} {set : StateSet}, exploration.found.sets[id]? = some set →
    exploration.found.isAccepting id = automaton.anyAccepting set
  reached : ∀ set ∈ exploration.found.sets, set ≠ ∅ ∧ ∃ text, automaton.after text = set
  known : ∀ set ∈ exploration.waiting, set ∈ exploration.found.sets
  once : exploration.waiting.Nodup
  blank : ∀ {id : Nat} {set : StateSet} {c : Char}, exploration.found.sets[id]? = some set →
    exploration.Undrawn current todo set c → exploration.found.next? id c = none
  drawn : ∀ {id : Nat} {set : StateSet} {c : Char}, exploration.found.sets[id]? = some set →
    ¬exploration.Undrawn current todo set c →
      exploration.found.Leads id c (automaton.step set c)

namespace Exploration

variable {automaton : Nfa} {current next : StateSet} {exploration : Exploration}
  {todo : List Char} {c : Char} {source target : Nat}

/-! ## One more state -/

def add (automaton : Nfa) (exploration : Exploration) (next : StateSet) : Exploration :=
  let added := exploration.found.insert (.ofNfa automaton next)
  { found := added.automaton
    waiting := if added.isNew then next :: exploration.waiting else exploration.waiting }

theorem add_of_mem (member : next ∈ exploration.found.sets) :
    exploration.add automaton next = exploration := by
  have known : (State.ofNfa automaton next).members ∈ exploration.found.sets := member
  obtain ⟨same, old⟩ := insert_of_mem known
  simp [add, same, old]

theorem waiting_add_of_not_mem (fresh : next ∉ exploration.found.sets) :
    (exploration.add automaton next).waiting = next :: exploration.waiting := by
  have unknown : (State.ofNfa automaton next).members ∉ exploration.found.sets := fresh
  simp [add, insert_of_not_mem unknown]

theorem sets_add_of_not_mem (fresh : next ∉ exploration.found.sets) :
    (exploration.add automaton next).found.sets = exploration.found.sets ++ [next] := by
  have unknown : (State.ofNfa automaton next).members ∉ exploration.found.sets := fresh
  exact sets_insert_of_not_mem unknown

theorem next?_add (id : Nat) (c : Char) :
    (exploration.add automaton next).found.next? id c = exploration.found.next? id c :=
  next?_insert rfl

theorem getElem?_add {id : Nat} {set : StateSet} (known : exploration.found.sets[id]? = some set) :
    (exploration.add automaton next).found.sets[id]? = some set :=
  getElem?_insert known

theorem getElem?_add_cases (fresh : next ∉ exploration.found.sets) {id : Nat} {set : StateSet}
    (known : (exploration.add automaton next).found.sets[id]? = some set) :
    exploration.found.sets[id]? = some set ∨ id = exploration.found.size ∧ set = next := by
  rw [sets_add_of_not_mem fresh, List.getElem?_append, length_sets] at known
  split at known
  · exact .inl known
  · rw [List.getElem?_singleton, Option.ite_none_right_eq_some] at known
    obtain ⟨here, same⟩ := known
    exact .inr ⟨by omega, (Option.some.inj same).symm⟩

theorem isAccepting_add_new (fresh : next ∉ exploration.found.sets) :
    (exploration.add automaton next).found.isAccepting exploration.found.size =
      automaton.anyAccepting next := by
  have unknown : (State.ofNfa automaton next).members ∉ exploration.found.sets := fresh
  have last : (exploration.add automaton next).found.state? exploration.found.size =
      some (.ofNfa automaton next) := by
    rw [add, insert_of_not_mem unknown]
    exact Array.getElem?_push_size
  rw [isAccepting, last]
  rfl

theorem next?_size (found : Dfa) (c : Char) : found.next? found.size c = none := by
  have outside : found.state? found.size = none := Array.getElem?_eq_none (Nat.le_refl _)
  rw [next?, outside, Option.bind_none]

namespace Charted

theorem leads_add {id : Nat} {set : StateSet} (leads : exploration.found.Leads id c set) :
    (exploration.add automaton next).found.Leads id c set := by
  obtain ⟨empty, none⟩ | ⟨target, drawn, known, occupied⟩ := leads
  · exact .inl ⟨empty, by rw [next?_add, none]⟩
  · exact .inr ⟨target, by rw [next?_add, drawn], getElem?_add known, occupied⟩

theorem undrawn_add_iff (fresh : next ∉ exploration.found.sets) {id : Nat} {set : StateSet}
    (known : exploration.found.sets[id]? = some set) :
    (exploration.add automaton next).Undrawn current todo set c ↔
      exploration.Undrawn current todo set c := by
  have apart : set ≠ next := fun same => fresh (same ▸ List.mem_of_getElem? known)
  simp only [Undrawn, waiting_add_of_not_mem fresh, List.mem_cons, apart, false_or]

theorem add_fresh (charted : exploration.Charted automaton current todo)
    (fresh : next ∉ exploration.found.sets) (occupied : next ≠ ∅)
    (reached : ∃ text, automaton.after text = next) :
    (exploration.add automaton next).Charted automaton current todo where
  distinct := by
    rw [sets_add_of_not_mem fresh]
    refine List.nodup_append.mpr ⟨charted.distinct, List.nodup_singleton next, ?_⟩
    intro old member new last same
    exact fresh (List.mem_singleton.mp last ▸ same ▸ member)
  first := getElem?_add charted.first
  accepting := by
    intro id set known
    obtain old | ⟨rfl, rfl⟩ := getElem?_add_cases fresh known
    · rw [← charted.accepting old, isAccepting, isAccepting]
      exact congrArg _ (state?_insert (lt_size_of_getElem? old))
    · exact isAccepting_add_new fresh
  reached := by
    intro set member
    rw [sets_add_of_not_mem fresh] at member
    obtain old | new := List.mem_append.mp member
    · exact charted.reached set old
    · rw [List.mem_singleton.mp new]
      exact ⟨occupied, reached⟩
  known := by
    intro set waits
    rw [waiting_add_of_not_mem fresh] at waits
    rw [sets_add_of_not_mem fresh]
    obtain rfl | old := List.mem_cons.mp waits
    · exact List.mem_append_right _ List.mem_cons_self
    · exact List.mem_append_left _ (charted.known set old)
  once := by
    rw [waiting_add_of_not_mem fresh]
    exact List.nodup_cons.mpr ⟨fun waits => fresh (charted.known next waits), charted.once⟩
  blank := by
    intro id set c known undrawn
    rw [next?_add]
    obtain old | ⟨rfl, rfl⟩ := getElem?_add_cases fresh known
    · exact charted.blank old ((undrawn_add_iff fresh old).mp undrawn)
    · exact next?_size ..
  drawn := by
    intro id set c known complete
    obtain old | ⟨_, rfl⟩ := getElem?_add_cases fresh known
    · exact leads_add (charted.drawn old fun undrawn =>
        complete ((undrawn_add_iff fresh old).mpr undrawn))
    · exact absurd (.inl (waiting_add_of_not_mem fresh ▸ List.mem_cons_self)) complete

/-- Adding a set keeps the exploration correct, whether the set is new or not. -/
theorem add (charted : exploration.Charted automaton current todo) (occupied : next ≠ ∅)
    (reached : ∃ text, automaton.after text = next) :
    (exploration.add automaton next).Charted automaton current todo := by
  by_cases member : next ∈ exploration.found.sets
  · rwa [add_of_mem member]
  · exact charted.add_fresh member occupied reached

/-! ## One more transition -/

theorem leads_linked {found : Dfa} {id : Nat} {d : Char} {set : StateSet}
    (leads : found.Leads id d set) (other : ¬(source = id ∧ c = d)) :
    (found.linked source c target).Leads id d set := by
  obtain ⟨empty, none⟩ | ⟨far, drawn, known, occupied⟩ := leads
  · exact .inl ⟨empty, by rw [next?_linked_of_ne other, none]⟩
  · exact .inr ⟨far, by rw [next?_linked_of_ne other, drawn], by rw [sets_linked, known], occupied⟩

/-- Drawing the transition to the successors on the next character does what was to do for it. -/
theorem link (charted : exploration.Charted automaton current (c :: todo))
    (here : exploration.found.sets[source]? = some current)
    (there : exploration.found.sets[target]? = some (automaton.step current c))
    (occupied : automaton.step current c ≠ ∅) (popped : current ∉ exploration.waiting)
    (last : c ∉ todo) :
    Charted automaton current todo
      { exploration with found := exploration.found.linked source c target } where
  distinct := by rw [sets_linked]; exact charted.distinct
  first := by rw [sets_linked]; exact charted.first
  accepting := by
    intro id set known
    rw [sets_linked] at known
    rw [isAccepting_linked, charted.accepting known]
  reached := by rw [sets_linked]; exact charted.reached
  known := by rw [sets_linked]; exact charted.known
  once := charted.once
  blank := by
    intro id set d known undrawn
    rw [sets_linked] at known
    have other : ¬(source = id ∧ c = d) := by
      intro ⟨same, equal⟩
      subst same equal
      obtain rfl : current = set := Option.some.inj (here.symm.trans known)
      exact undrawn.elim popped fun left => last left.2
    rw [next?_linked_of_ne other]
    exact charted.blank known
      (undrawn.imp_right fun left => ⟨left.1, List.mem_cons_of_mem _ left.2⟩)
  drawn := by
    intro id set d known complete
    rw [sets_linked] at known
    by_cases same : source = id ∧ c = d
    · obtain ⟨rfl, rfl⟩ := same
      obtain rfl : current = set := Option.some.inj (here.symm.trans known)
      exact .inr ⟨target, next?_linked_self (lt_size_of_getElem? here),
        by rw [sets_linked, there], occupied⟩
    · refine leads_linked (charted.drawn known fun undrawn => complete ?_) same
      refine undrawn.imp_right fun left => ⟨left.1, (List.mem_cons.mp left.2).resolve_left ?_⟩
      intro equal
      -- only one state stands for the current set
      have bound : source < exploration.found.sets.length :=
        length_sets ▸ lt_size_of_getElem? here
      rw [left.1] at known
      exact same ⟨(List.getElem?_inj bound charted.distinct).mp (here.trans known.symm), equal.symm⟩

/-! ## A whole visit -/

theorem skip (charted : exploration.Charted automaton current (c :: todo))
    (nothing : automaton.step current c = ∅) : exploration.Charted automaton current todo where
  distinct := charted.distinct
  first := charted.first
  accepting := charted.accepting
  reached := charted.reached
  known := charted.known
  once := charted.once
  blank := fun known undrawn => charted.blank known
    (undrawn.imp_right fun left => ⟨left.1, List.mem_cons_of_mem _ left.2⟩)
  drawn := by
    intro id set d known complete
    -- of all that was to do only this one transition is not to do any more
    by_cases undrawn : exploration.Undrawn current (c :: todo) set d
    · obtain waits | ⟨rfl, member⟩ := undrawn
      · exact absurd (.inl waits) complete
      · obtain rfl | later := List.mem_cons.mp member
        · exact .inl ⟨nothing, charted.blank known (.inr ⟨rfl, List.mem_cons_self⟩)⟩
        · exact absurd (.inr ⟨rfl, later⟩) complete
    · exact charted.drawn known undrawn

theorem after_step {set : StateSet} (reached : ∃ text, automaton.after text = set) (c : Char) :
    ∃ text, automaton.after text = automaton.step set c := by
  obtain ⟨text, rfl⟩ := reached
  exact ⟨text ++ [c], Nfa.after_concat⟩

theorem not_mem_waiting_add (here : exploration.found.sets[source]? = some current)
    (popped : current ∉ exploration.waiting) :
    current ∉ (exploration.add automaton next).waiting := by
  by_cases member : next ∈ exploration.found.sets
  · rwa [add_of_mem member]
  · rw [waiting_add_of_not_mem member, List.mem_cons, not_or]
    exact ⟨fun same => member (same ▸ List.mem_of_getElem? here), popped⟩

theorem exists_discover_eq (here : exploration.found.sets[source]? = some current)
    (same : automaton.step current c = next) (occupied : next ≠ ∅) :
    ∃ target, (exploration.add automaton next).found.sets[target]? = some next ∧
      exploration.discover automaton current source c =
        some ⟨(exploration.add automaton next).found.linked source c target,
          (exploration.add automaton next).waiting⟩ := by
  have left : ¬next.isEmpty = true := fun empty => occupied (Std.ExtTreeSet.isEmpty_iff.mp empty)
  have there : (exploration.add automaton next).found.sets[
      (exploration.found.insert (.ofNfa automaton next)).id]? = some next := getElem?_insert_id
  have kept : (exploration.add automaton next).found.sets[source]? = some current :=
    getElem?_add here
  have drawn := connect_eq_ok (c := c) (lt_size_of_getElem? kept) (lt_size_of_getElem? there)
  refine ⟨_, there, ?_⟩
  rw [Exploration.discover, same, if_neg left]
  simp only [Exploration.add] at drawn ⊢
  rw [drawn]

/-- Looking at the successors on one character never fails. -/
theorem discover (charted : exploration.Charted automaton current (c :: todo))
    (here : exploration.found.sets[source]? = some current) (popped : current ∉ exploration.waiting)
    (last : c ∉ todo) :
    ∃ later, exploration.discover automaton current source c = some later ∧
      later.Charted automaton current todo ∧ later.found.sets[source]? = some current ∧
        current ∉ later.waiting := by
  generalize same : automaton.step current c = next
  by_cases nothing : next = ∅
  · subst nothing
    have empty : (automaton.step current c).isEmpty = true := Std.ExtTreeSet.isEmpty_iff.mpr same
    exact ⟨exploration, by rw [Exploration.discover, if_pos empty], charted.skip same, here, popped⟩
  · obtain ⟨target, there, done⟩ := exists_discover_eq here same nothing
    have reached := after_step (charted.reached current (List.mem_of_getElem? here)).2 c
    have grown : (exploration.add automaton next).Charted automaton current (c :: todo) :=
      charted.add nothing (same ▸ reached)
    have kept : (exploration.add automaton next).found.sets[source]? = some current :=
      getElem?_add here
    have still : current ∉ (exploration.add automaton next).waiting :=
      not_mem_waiting_add here popped
    refine ⟨_, done, ?_, by rw [sets_linked, kept], still⟩
    subst same
    exact grown.link kept there nothing still last

theorem foldlM_discover {done : List Char} (charted : exploration.Charted automaton current (done ++ todo))
    (here : exploration.found.sets[source]? = some current) (popped : current ∉ exploration.waiting)
    (once : (done ++ todo).Nodup) :
    ∃ later, done.foldlM (Exploration.discover automaton current source) exploration = some later ∧
      later.Charted automaton current todo ∧ later.found.sets[source]? = some current ∧
        current ∉ later.waiting := by
  induction done generalizing exploration with
  | nil => exact ⟨exploration, rfl, charted, here, popped⟩
  | cons c rest ih =>
    obtain ⟨last, once⟩ := List.nodup_cons.mp once
    obtain ⟨middle, first, charted, here, popped⟩ := charted.discover here popped last
    obtain ⟨later, finished, kept⟩ := ih charted here popped once
    exact ⟨later, by rw [List.foldlM_cons, first]; exact finished, kept⟩

theorem pop {found : Dfa} {waiting : List StateSet}
    (charted : Charted automaton next [] ⟨found, current :: waiting⟩) :
    Charted automaton current automaton.alphabet.toList ⟨found, waiting⟩ where
  distinct := charted.distinct
  first := charted.first
  accepting := charted.accepting
  reached := charted.reached
  known := fun set waits => charted.known set (List.mem_cons_of_mem _ waits)
  once := (List.nodup_cons.mp charted.once).2
  blank := by
    intro id set c known undrawn
    obtain waits | ⟨rfl, _⟩ := undrawn
    · exact charted.blank known (.inl (List.mem_cons_of_mem _ waits))
    · exact charted.blank known (.inl List.mem_cons_self)
  drawn := by
    intro id set c known complete
    obtain ⟨visited, done⟩ := not_or.mp complete
    -- the transitions of the popped set are blank on all characters, and right on unused ones
    by_cases same : set = current
    · have unused : c ∉ automaton.alphabet := fun used =>
        done ⟨same, Std.ExtTreeSet.mem_toList.mpr used⟩
      subst same
      exact .inl ⟨Nfa.step_eq_empty unused, charted.blank known (.inl List.mem_cons_self)⟩
    · refine charted.drawn known fun undrawn => ?_
      obtain waits | ⟨_, none⟩ := undrawn
      · exact (List.mem_cons.mp waits).elim same visited
      · cases none

theorem visit {found : Dfa} {waiting : List StateSet}
    (charted : Charted automaton next [] ⟨found, current :: waiting⟩) :
    ∃ later, Exploration.visit automaton current ⟨found, waiting⟩ = some later ∧
      later.Charted automaton current [] := by
  have member : current ∈ found.sets := charted.known current List.mem_cons_self
  obtain ⟨source, here⟩ := Option.isSome_iff_exists.mp (find?_isSome_iff.mpr member)
  have popped : current ∉ waiting := (List.nodup_cons.mp charted.once).1
  have whole : automaton.alphabet.toList = automaton.alphabet.toList ++ [] := by simp
  have start : Charted automaton current (automaton.alphabet.toList ++ []) ⟨found, waiting⟩ :=
    whole ▸ charted.pop
  obtain ⟨later, done, charted, _⟩ := start.foldlM_discover (getElem?_of_find? here) popped
    (whole ▸ Nfa.nodup_alphabet)
  exact ⟨later, by rw [Exploration.visit, here]; exact done, charted⟩

theorem complete? (charted : exploration.Charted automaton current []) :
    ∃ found, exploration.complete? automaton = some found ∧
      ∃ last, Charted automaton last [] ⟨found, []⟩ := by
  fun_induction exploration.complete? automaton generalizing current with
  | case1 exploration finished =>
    obtain ⟨found, waiting⟩ := exploration
    subst finished
    exact ⟨found, rfl, current, charted⟩
  | case2 exploration next waiting waits stuck =>
    obtain ⟨found, _⟩ := exploration
    subst waits
    obtain ⟨later, done, _⟩ := charted.visit
    cases stuck.symm.trans done
  | case3 exploration next waiting waits later visited ih =>
    obtain ⟨found, _⟩ := exploration
    subst waits
    obtain ⟨same, done, charted⟩ := charted.visit
    obtain rfl : later = same := Option.some.inj (visited.symm.trans done)
    exact ih charted

theorem start (occupied : automaton.initial ≠ ∅) :
    Charted automaton ∅ []
      ⟨ofStart (.ofNfa automaton automaton.initial), [automaton.initial]⟩ where
  distinct := List.nodup_singleton _
  first := rfl
  accepting := by
    intro id set known
    obtain ⟨inside, same⟩ := List.getElem?_eq_some_iff.mp known
    obtain rfl : id = 0 := Nat.lt_one_iff.mp inside
    obtain rfl : automaton.initial = set := same
    rfl
  reached := by
    intro set member
    rw [List.mem_singleton.mp member]
    exact ⟨occupied, [], rfl⟩
  known := fun _ waits => waits
  once := List.nodup_singleton _
  blank := by
    intro id set c known _
    obtain ⟨inside, _⟩ := List.getElem?_eq_some_iff.mp known
    obtain rfl : id = 0 := Nat.lt_one_iff.mp inside
    rfl
  drawn := fun known complete => absurd (.inl (List.mem_of_getElem? known)) complete

end Charted

end Exploration

structure Simulates (found : Dfa) (automaton : Nfa) : Prop where
  distinct : found.sets.Nodup
  first : found.sets[0]? = some automaton.initial
  accepting : ∀ {id : Nat} {set : StateSet}, found.sets[id]? = some set →
    found.isAccepting id = automaton.anyAccepting set
  reached : ∀ set ∈ found.sets, set ≠ ∅ ∧ ∃ text, automaton.after text = set
  leads : ∀ {id : Nat} {set : StateSet} (c : Char), found.sets[id]? = some set →
    found.Leads id c (automaton.step set c)

/-- An exploration ends, and then no set lacks its transitions. -/
theorem exists_ofNfa? {automaton : Nfa} (occupied : automaton.initial ≠ ∅) :
    ∃ found, ofNfa? automaton = some found ∧ found.Simulates automaton := by
  obtain ⟨found, done, last, charted⟩ := (Exploration.Charted.start occupied).complete?
  refine ⟨found, done, charted.distinct, charted.first, charted.accepting, charted.reached, ?_⟩
  intro id set c known
  refine charted.drawn known fun undrawn => ?_
  obtain waits | ⟨_, none⟩ := undrawn
  · cases waits
  · cases none

end Dfa

end PatternAutomata
