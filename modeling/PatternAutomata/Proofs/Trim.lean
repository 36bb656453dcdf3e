import PatternAutomata.Proofs.Assembly
import PatternAutomata.Proofs.LanguageOperations

/-! Automata without useless states, and when a run of them gives up.

Every building step leaves each state on a way from the start state to the
accept state. Then a state that is reached can still be left for the accept
state, so a run has states left just as long as some continuation is accepted.
-/

set_option autoImplicit false

namespace PatternAutomata

namespace Nfa

variable {automaton part whole body left right : Nfa} {source middle target id near far offset : Nat}
  {label : Option Char} {pairs : List (Nat × Nat)}

/-! ## States that lead to each other -/

def Reaches (automaton : Nfa) (source target : Nat) : Prop :=
  ∃ text, automaton.Path source text target

theorem Reaches.refl (inside : id < automaton.size) : automaton.Reaches id id := ⟨[], .here inside⟩

theorem Reaches.trans (first : automaton.Reaches source middle)
    (second : automaton.Reaches middle target) : automaton.Reaches source target := by
  obtain ⟨_, before⟩ := first
  obtain ⟨_, after⟩ := second
  exact ⟨_, before.append after⟩

theorem Reaches.source_lt (reaches : automaton.Reaches source target) : source < automaton.size := by
  obtain ⟨_, path⟩ := reaches
  exact path.source_lt

theorem Reaches.target_lt (reaches : automaton.Reaches source target) : target < automaton.size := by
  obtain ⟨_, path⟩ := reaches
  exact path.target_lt

theorem HasEdge.reaches (edge : automaton.HasEdge near none far) (inside : far < automaton.size) :
    automaton.Reaches near far :=
  ⟨[], .silent edge (.here inside)⟩

theorem Embeds.reaches (embeds : Embeds part whole offset) (reaches : part.Reaches near far) :
    whole.Reaches (near + offset) (far + offset) := by
  obtain ⟨text, path⟩ := reaches
  exact ⟨text, embeds.path path⟩

/-! ## Automata without useless states -/

/-- Every state is on a way from the start state to the accept state. -/
structure Trim (automaton : Nfa) : Prop where
  reached : ∀ id < automaton.size, automaton.Reaches automaton.start id
  leads : ∀ id < automaton.size, automaton.Reaches id automaton.accept

theorem WellFormed.size_pos (formed : automaton.WellFormed) : 0 < automaton.size :=
  Nat.lt_of_le_of_lt (Nat.zero_le _) formed.start_lt

theorem trim_empty : empty.Trim where
  reached := by
    intro id inside
    obtain rfl : id = 0 := Nat.lt_one_iff.mp inside
    exact .refl Nat.one_pos
  leads := by
    intro id inside
    obtain rfl : id = 0 := Nat.lt_one_iff.mp inside
    exact .refl Nat.one_pos

theorem trim_literal {c : Char} : (literal c).Trim := by
  have across : (literal c).Reaches 0 1 :=
    ⟨[c], .read (hasEdge_literal.mpr ⟨rfl, rfl, rfl⟩) (.here Nat.one_lt_two)⟩
  constructor
  · intro id inside
    match id, inside with
    | 0, inside => exact .refl inside
    | 1, _ => exact across
  · intro id inside
    match id, inside with
    | 0, _ => exact across
    | 1, inside => exact .refl inside

theorem Trim.concat (one : left.Trim) (two : right.Trim) (first : left.WellFormed)
    (second : right.WellFormed) : (left.concat right).Trim := by
  have before : Embeds left (left.concat right) 0 := embeds_concat_left first.accept_lt
  have behind : Embeds right (left.concat right) left.size := embeds_concat_right first.accept_lt
  have entry := behind.reaches (two.reached _ second.accept_lt)
  have link : (left.concat right).HasEdge left.accept none (right.start + left.size) :=
    (hasEdge_concat first.accept_lt).mpr (Or.inr (Or.inr ⟨rfl, rfl, rfl⟩))
  -- from every state of the left part into the right part
  have cross (id : Nat) (inside : id < left.size) :
      (left.concat right).Reaches id (right.start + left.size) :=
    (before.reaches (one.leads id inside)).trans (link.reaches entry.source_lt)
  constructor
  · intro id inside
    rw [start_concat]
    by_cases old : id < left.size
    · exact before.reaches (one.reached id old)
    · obtain ⟨place, rfl⟩ := Nat.exists_eq_add_of_le' (Nat.not_lt.mp old)
      rw [size_concat] at inside
      exact (cross _ first.start_lt).trans (behind.reaches (two.reached place (by omega)))
  · intro id inside
    rw [accept_concat]
    by_cases old : id < left.size
    · exact (cross id old).trans entry
    · obtain ⟨place, rfl⟩ := Nat.exists_eq_add_of_le' (Nat.not_lt.mp old)
      rw [size_concat] at inside
      exact behind.reaches (two.leads place (by omega))

theorem reaches_of_link (drawn : (near, far) ∈ pairs) (source : near < body.size + 2)
    (target : far < body.size + 2) : (body.enclose.linkAll pairs).Reaches near far := by
  have link : (body.enclose.linkAll pairs).HasEdge near none far := by
    rw [hasEdge_linkAll, size_enclose]
    exact Or.inr ⟨rfl, drawn, source⟩
  apply link.reaches
  rw [size_linkAll, size_enclose]
  exact target

theorem trim_enclosed (occupied : 0 < body.size)
    (entered : ∀ id < body.size, ∃ entry, (body.size, entry) ∈ pairs ∧ body.Reaches entry id)
    (left : ∀ id < body.size, ∃ exit, (exit, body.size + 1) ∈ pairs ∧ body.Reaches id exit) :
    (body.enclose.linkAll pairs).Trim := by
  have inward (id : Nat) (inside : id < body.size) :
      (body.enclose.linkAll pairs).Reaches body.size id := by
    obtain ⟨entry, drawn, reaches⟩ := entered id inside
    have bound := reaches.source_lt
    exact (reaches_of_link drawn (by omega) (by omega)).trans (embeds_enclosed.reaches reaches)
  have outward (id : Nat) (inside : id < body.size) :
      (body.enclose.linkAll pairs).Reaches id (body.size + 1) := by
    obtain ⟨exit, drawn, reaches⟩ := left id inside
    have bound := reaches.target_lt
    exact (embeds_enclosed.reaches reaches).trans (reaches_of_link drawn (by omega) (by omega))
  have across := (inward 0 occupied).trans (outward 0 occupied)
  have cases (id : Nat) (inside : id < (body.enclose.linkAll pairs).size) :
      id < body.size ∨ id = body.size ∨ id = body.size + 1 := by
    rw [size_linkAll, size_enclose] at inside
    omega
  constructor
  · intro id inside
    rw [start_linkAll, start_enclose]
    rcases cases id inside with old | rfl | rfl
    · exact inward id old
    · exact .refl inside
    · exact across
  · intro id inside
    rw [accept_linkAll, accept_enclose]
    rcases cases id inside with old | rfl | rfl
    · exact outward id old
    · exact across
    · exact .refl inside

theorem Trim.union (one : left.Trim) (two : right.Trim) (first : left.WellFormed)
    (second : right.WellFormed) : (left.union right).Trim := by
  have size : (left.adopt right).size = left.size + right.size := size_adopt
  apply trim_enclosed (first.adopt second).size_pos
  · intro id inside
    by_cases old : id < left.size
    · exact ⟨left.start, by simp, embeds_adopt_left.reaches (one.reached id old)⟩
    · obtain ⟨place, rfl⟩ := Nat.exists_eq_add_of_le' (Nat.not_lt.mp old)
      exact ⟨right.start + left.size, by simp,
        embeds_adopt_right.reaches (two.reached place (by omega))⟩
  · intro id inside
    by_cases old : id < left.size
    · exact ⟨left.accept, by simp, embeds_adopt_left.reaches (one.leads id old)⟩
    · obtain ⟨place, rfl⟩ := Nat.exists_eq_add_of_le' (Nat.not_lt.mp old)
      exact ⟨right.accept + left.size, by simp,
        embeds_adopt_right.reaches (two.leads place (by omega))⟩

/-- A quantifier leads from the new start state into its operand and from there to the new accept
state, whatever other edges it draws. -/
theorem Trim.repeated (trim : body.Trim) (formed : body.WellFormed) (how : Quantifier) :
    (Nfa.repeated how body).Trim := by
  cases how
  all_goals
    apply trim_enclosed formed.size_pos
    · intro id inside
      exact ⟨body.start, by simp, trim.reached id inside⟩
    · intro id inside
      exact ⟨body.accept, by simp, trim.leads id inside⟩

theorem Trim.joined (one : left.Trim) (two : right.Trim) (first : left.WellFormed)
    (second : right.WellFormed) (how : Connective) : (Nfa.joined how left right).Trim := by
  cases how with
  | concat => exact one.concat two first second
  | union => exact one.union two first second

theorem Assembled.trim (assembled : Assembled automaton) : automaton.Trim := by
  induction assembled with
  | empty => exact trim_empty
  | literal c => exact trim_literal
  | joined how left right one two => exact one.joined two left.wellFormed right.wellFormed how
  | repeated how body ih => exact ih.repeated body.wellFormed how

/-! ## When a run gives up -/

def Viable (automaton : Nfa) (text : String) : Prop :=
  ∃ rest : String, automaton.accepts (text ++ rest) = true

/-- Reading the input, the run has states left before the character at the place and none behind
it, so that the rest of the input is not read. -/
def GivesUpAt (automaton : Nfa) (input : String) (place : Nat) : Prop :=
  ∃ set c, automaton.run? automaton.initial (input.toList.take place) = some set ∧
    input.toList[place]? = some c ∧ automaton.step set c = ∅

variable {current set : StateSet} {text first second : List Char} {c : Char} {place : Nat}

theorem Trim.viable_iff (trim : automaton.Trim) (formed : automaton.WellFormed) {text : String} :
    automaton.Viable text ↔ automaton.after text.toList ≠ ∅ := by
  rw [StateSet.ne_empty_iff]
  constructor
  · rintro ⟨rest, accepted⟩
    rw [formed.accepts_iff, String.toList_append] at accepted
    obtain ⟨middle, before, _⟩ := accepted.split rfl
    exact ⟨middle, mem_after_iff.mpr before⟩
  · rintro ⟨id, member⟩
    have path := mem_after_iff.mp member
    obtain ⟨rest, onward⟩ := trim.leads id path.target_lt
    refine ⟨String.ofList rest, ?_⟩
    rw [formed.accepts_iff, String.toList_append, String.toList_ofList]
    exact path.append onward

theorem run?_cons :
    automaton.run? current (c :: text) =
      if automaton.step current c = ∅ then none else automaton.run? (automaton.step current c) text := by
  simp only [run?, Std.ExtTreeSet.isEmpty_iff]

theorem run?_append :
    automaton.run? current (first ++ second) =
      (automaton.run? current first).bind (automaton.run? · second) := by
  induction first generalizing current with
  | nil => rfl
  | cons c rest ih =>
    rw [List.cons_append, run?_cons, run?_cons, ih]
    split <;> rfl

theorem run?_eq_some_iff (occupied : current ≠ ∅) :
    automaton.run? current text = some set ↔ text.foldl automaton.step current = set ∧ set ≠ ∅ := by
  induction text generalizing current with
  | nil =>
    rw [run?, List.foldl_nil, Option.some.injEq]
    exact ⟨fun same => ⟨same, same ▸ occupied⟩, And.left⟩
  | cons c rest ih =>
    rw [run?_cons, List.foldl_cons]
    by_cases empty : automaton.step current c = ∅
    · rw [if_pos empty, empty, foldl_step_empty]
      constructor
      · intro same
        cases same
      · rintro ⟨rfl, left⟩
        exact absurd rfl left
    · rw [if_neg empty]
      exact ih empty

theorem exists_of_run?_eq_none (gaveUp : automaton.run? current text = none) :
    ∃ place set c, automaton.run? current (text.take place) = some set ∧ text[place]? = some c ∧
      automaton.step set c = ∅ := by
  induction text generalizing current with
  | nil => cases gaveUp
  | cons c rest ih =>
    rw [run?_cons] at gaveUp
    by_cases empty : automaton.step current c = ∅
    · exact ⟨0, current, c, rfl, rfl, empty⟩
    · rw [if_neg empty] at gaveUp
      obtain ⟨place, set, d, run, here, stop⟩ := ih gaveUp
      refine ⟨place + 1, set, d, ?_, here, stop⟩
      rw [List.take_succ_cons, run?_cons, if_neg empty, run]

theorem run?_eq_none_iff {input : String} :
    automaton.run? automaton.initial input.toList = none ↔
      ∃ place, automaton.GivesUpAt input place := by
  constructor
  · intro gaveUp
    obtain ⟨place, set, c, outcome⟩ := exists_of_run?_eq_none gaveUp
    exact ⟨place, set, c, outcome⟩
  · rintro ⟨place, set, c, run, here, stop⟩
    obtain ⟨inside, rfl⟩ := List.getElem?_eq_some_iff.mp here
    rw [← List.take_append_drop place input.toList, run?_append, run, Option.bind_some,
      List.drop_eq_getElem_cons inside, run?_cons, if_pos stop]

theorem givesUpAt_iff (formed : automaton.WellFormed) {input : String} :
    automaton.GivesUpAt input place ↔
      place < input.length ∧ automaton.after (input.toList.take place) ≠ ∅ ∧
        automaton.after (input.toList.take (place + 1)) = ∅ := by
  have occupied := Dfa.initial_ne_empty formed
  rw [← String.length_toList]
  constructor
  · rintro ⟨set, c, run, here, stop⟩
    obtain ⟨reached, left⟩ := (run?_eq_some_iff occupied).mp run
    obtain ⟨inside, _⟩ := List.getElem?_eq_some_iff.mp here
    refine ⟨inside, fun empty => left (reached.symm.trans empty), ?_⟩
    rw [List.take_add_one, here, Option.toList_some, after_concat, after, reached, stop]
  · rintro ⟨inside, left, empty⟩
    have here : input.toList[place]? = some input.toList[place] := List.getElem?_eq_getElem inside
    rw [List.take_add_one, here, Option.toList_some, after_concat] at empty
    exact ⟨_, _, (run?_eq_some_iff occupied).mpr ⟨rfl, left⟩, here, empty⟩

/-- No state of a compiled automaton is useless. So the states after a text are none just if no
continuation of it is accepted, and a run gives up at the first character behind which this is so. -/
theorem early_rejection_is_exact (automaton : Nfa) (compiled : Compiled automaton) :
    (∀ id < automaton.size, (∃ text, automaton.Path automaton.start text id) ∧
        ∃ text, automaton.Path id text automaton.accept) ∧
      (∀ text : String, automaton.after text.toList ≠ ∅ ↔
        ∃ rest : String, automaton.accepts (text ++ rest) = true) ∧
      (∀ input : String, automaton.run? automaton.initial input.toList = none ↔
        ∃ place, automaton.GivesUpAt input place) ∧
      ∀ (input : String) (place : Nat), automaton.GivesUpAt input place ↔
        place < input.length ∧ automaton.Viable (String.ofList (input.toList.take place)) ∧
          ¬automaton.Viable (String.ofList (input.toList.take (place + 1))) := by
  have formed := compiled.wellFormed
  have trim := (Assembled.of_compiled compiled).trim
  refine ⟨fun id inside => ⟨trim.reached id inside, trim.leads id inside⟩, ?_, ?_, ?_⟩
  · intro text
    exact (trim.viable_iff formed).symm
  · intro input
    exact run?_eq_none_iff
  · intro input place
    rw [givesUpAt_iff formed, trim.viable_iff formed, trim.viable_iff formed, Classical.not_not,
      String.toList_ofList, String.toList_ofList]

theorem early_rejection_is_exact_loop :
    Compiled (literal 'a').star ∧ (literal 'a').star.GivesUpAt "aabb" 2 := by
  have compiled : Compiled (literal 'a').star := .inl ⟨"a*", rfl⟩
  obtain ⟨_, viable, _, places⟩ := early_rejection_is_exact _ compiled
  have accepted : (literal 'a').star.accepts "aa" = true :=
    mem_language_star_literal.mpr (by simp : ∀ d ∈ ['a', 'a'], d = 'a')
  have unused : 'b' ∉ (literal 'a').star.alphabet := by decide +kernel
  have nothing : (literal 'a').star.after "aab".toList = ∅ := step_eq_empty unused
  refine ⟨compiled, (places "aabb" 2).mpr ⟨by decide, ⟨"", accepted⟩, fun longer => ?_⟩⟩
  exact (viable "aab").mpr longer nothing

end Nfa

end PatternAutomata
