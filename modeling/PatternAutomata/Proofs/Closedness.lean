import PatternAutomata.Proofs.History

/-! Checked requests never lead a run out of the automaton.

A transition is drawn only between states that exist, and no state is taken away
again. So a run stays among the states there are, stops early only in one of
them, and goes the same way when more states are added.
-/

set_option autoImplicit false

namespace PatternAutomata

namespace Dfa

/-- Requests by which no transition comes in unchecked: a state brings none of its own, and an edit
only sets the flag. -/
def Request.Checked : Request → Prop
  | .insert state => state.transitions = ∅
  | .connect _ _ _ => True
  | .edit _ (.mark _) => True
  | .edit _ (.connect _ _) => False

structure Closed (automaton : Dfa) : Prop where
  start_lt : start < automaton.size
  target_lt : ∀ {id target : Nat} {state : State} {c : Char}, automaton.state? id = some state →
    state.transitions[c]? = some target → target < automaton.size

variable {automaton later : Dfa} {state : State} {id target : Nat} {c : Char} {edit : Edit}
  {request : Request} {requests : List Request} {text : List Char}

theorem lt_size_of_state? (here : automaton.state? id = some state) : id < automaton.size :=
  (Array.getElem?_eq_some_iff.mp here).1

/-! ## What keeps an automaton closed -/

theorem closed_ofStart (bare : state.transitions = ∅) : (ofStart state).Closed where
  start_lt := Nat.one_pos
  target_lt := by
    intro id target present c here drawn
    obtain rfl : id = 0 := Nat.lt_one_iff.mp (lt_size_of_state? here)
    obtain rfl : state = present := Option.some.inj here
    simp [bare] at drawn

theorem Closed.altered (closed : automaton.Closed) (altered : Altered automaton later id edit)
    (inside : ∀ c target, edit = .connect c target → target < automaton.size) : later.Closed where
  start_lt := altered.size.symm ▸ closed.start_lt
  target_lt := by
    intro place target present c here drawn
    rw [altered.size]
    by_cases same : place = id
    · obtain ⟨before, after, earlier, now, alters⟩ := altered.here
      obtain rfl : after = present := Option.some.inj (now.symm.trans (same ▸ here))
      cases edit with
      | connect d goal =>
        rw [alters.2.2] at drawn
        split at drawn
        · obtain rfl : goal = target := Option.some.inj drawn
          exact inside d goal rfl
        · exact closed.target_lt earlier drawn
      | mark accepting =>
        rw [alters.2.1] at drawn
        exact closed.target_lt earlier drawn
    · rw [altered.others place same] at here
      exact closed.target_lt here drawn

theorem Closed.respond (closed : automaton.Closed) (checked : request.Checked) :
    (automaton.respond request).1.Closed := by
  have responds := responds_respond automaton request
  generalize automaton.respond request = outcome at responds ⊢
  cases responds with
  | known => exact closed
  | noTarget => exact closed
  | noSource => exact closed
  | absent => exact closed
  | @fresh state later unknown grown kept added =>
    constructor
    · exact grown ▸ Nat.lt_succ_of_lt closed.start_lt
    · intro id target present c here drawn
      have bound : id < automaton.size + 1 := grown ▸ lt_size_of_state? here
      rcases Nat.lt_succ_iff_lt_or_eq.mp bound with old | rfl
      · rw [kept id old] at here
        exact grown ▸ Nat.lt_succ_of_lt (closed.target_lt here drawn)
      · obtain rfl : state = present := Option.some.inj (added.symm.trans here)
        have bare : state.transitions = ∅ := checked
        simp [bare] at drawn
  | connected there altered =>
    refine closed.altered altered ?_
    rintro _ _ ⟨⟩
    exact there
  | @edited id edit later altered =>
    refine closed.altered altered ?_
    rintro c target rfl
    exact absurd checked not_false

/-- An automaton that was made by checked requests, refused ones among them. -/
def Checked (automaton : Dfa) : Prop :=
  ∃ (initial : State) (requests : List Request), initial.transitions = ∅ ∧
    (∀ request ∈ requests, request.Checked) ∧ automaton = (ofStart initial).after requests

theorem Closed.after (closed : automaton.Closed)
    (checked : ∀ request ∈ requests, request.Checked) : (automaton.after requests).Closed := by
  induction requests generalizing automaton with
  | nil => exact closed
  | cons request rest ih =>
    obtain ⟨first, others⟩ := List.forall_mem_cons.mp checked
    exact ih (closed.respond first) others

theorem Checked.closed (checked : automaton.Checked) : automaton.Closed := by
  obtain ⟨initial, requests, bare, checks, rfl⟩ := checked
  exact (closed_ofStart bare).after checks

/-! ## Runs of a closed automaton -/

def StopsAt (automaton : Dfa) (input : String) (place : Nat) : Prop :=
  ∃ id state c, automaton.run? start (input.toList.take place) = some id ∧
    automaton.state? id = some state ∧ input.toList[place]? = some c ∧ state.transitions[c]? = none

theorem Closed.next?_lt (closed : automaton.Closed) (leads : automaton.next? id c = some target) :
    target < automaton.size := by
  obtain ⟨state, here, drawn⟩ := Option.bind_eq_some_iff.mp leads
  exact closed.target_lt here drawn

theorem Closed.run?_lt (closed : automaton.Closed) (inside : id < automaton.size)
    (reached : automaton.run? id text = some target) : target < automaton.size := by
  induction text generalizing id with
  | nil => exact Option.some.inj reached ▸ inside
  | cons c rest ih =>
    obtain ⟨middle, leads, rests⟩ := Option.bind_eq_some_iff.mp reached
    exact ih (closed.next?_lt leads) rests

theorem Closed.exists_stop (closed : automaton.Closed) (inside : id < automaton.size)
    (stopped : automaton.run? id text = none) :
    ∃ place here state c, automaton.run? id (text.take place) = some here ∧
      automaton.state? here = some state ∧ text[place]? = some c ∧ state.transitions[c]? = none := by
  induction text generalizing id with
  | nil => cases stopped
  | cons c rest ih =>
    cases leads : automaton.next? id c with
    | none =>
      obtain ⟨state, here⟩ := state?_of_lt inside
      rw [next?, here, Option.bind_some] at leads
      exact ⟨0, id, state, c, rfl, here, rfl, leads⟩
    | some middle =>
      rw [run?, leads, Option.bind_some] at stopped
      obtain ⟨place, last, state, d, reached, rests⟩ := ih (closed.next?_lt leads) stopped
      refine ⟨place + 1, last, state, d, ?_, rests⟩
      rw [List.take_succ_cons, run?, leads, Option.bind_some, reached]

theorem Closed.verdict (closed : automaton.Closed) (input : String) :
    (∃ id state, automaton.run? start input.toList = some id ∧ automaton.state? id = some state ∧
        automaton.accepts input = state.accepting) ∨
      ∃ place, automaton.StopsAt input place ∧ automaton.accepts input = false := by
  cases ends : automaton.run? start input.toList with
  | none =>
    obtain ⟨place, stop⟩ := closed.exists_stop closed.start_lt ends
    refine .inr ⟨place, stop, ?_⟩
    rw [accepts, ends]
    rfl
  | some id =>
    obtain ⟨state, here⟩ := state?_of_lt (closed.run?_lt closed.start_lt ends)
    refine .inl ⟨id, state, rfl, here, ?_⟩
    rw [accepts, ends, Option.any_some, isAccepting, here, Option.any_some]

/-! ## More states -/

theorem state?_after_insert {more : List State} (here : automaton.state? id = some state) :
    (automaton.after (more.map .insert)).state? id = some state := by
  induction more generalizing automaton with
  | nil => exact here
  | cons added more ih => exact ih ((state?_insert (lt_size_of_state? here)).trans here)

/-- Runs are the same where the old states are, since they never leave these. -/
theorem Closed.run?_congr (closed : automaton.Closed)
    (kept : ∀ {id state}, automaton.state? id = some state → later.state? id = some state)
    (inside : id < automaton.size) : later.run? id text = automaton.run? id text := by
  induction text generalizing id with
  | nil => rfl
  | cons c rest ih =>
    obtain ⟨state, here⟩ := state?_of_lt inside
    have leads : later.next? id c = automaton.next? id c := by rw [next?, next?, here, kept here]
    rw [run?, run?, leads]
    cases next : automaton.next? id c with
    | none => rfl
    | some middle => exact ih (closed.next?_lt next)

theorem Closed.accepts_congr (closed : automaton.Closed)
    (kept : ∀ {id state}, automaton.state? id = some state → later.state? id = some state)
    (input : String) : later.accepts input = automaton.accepts input := by
  rw [accepts, accepts, closed.run?_congr kept closed.start_lt]
  cases ends : automaton.run? start input.toList with
  | none => rfl
  | some id =>
    obtain ⟨state, here⟩ := state?_of_lt (closed.run?_lt closed.start_lt ends)
    rw [Option.any_some, Option.any_some, isAccepting, isAccepting, here, kept here]

/-- After checked requests every transition leads to a state. A run is always in a state, and rejects
before the end only where that state has no transition on the next character. States added later
change no run and no verdict, whatever they bring with them. -/
theorem checked_requests_keep_closed (automaton : Dfa) (checked : automaton.Checked) :
    (∀ (id target : Nat) (state : State) (c : Char), automaton.state? id = some state →
        state.transitions[c]? = some target → ∃ there, automaton.state? target = some there) ∧
      (∀ (input : String) (place id : Nat),
        automaton.run? start (input.toList.take place) = some id →
          ∃ state, automaton.state? id = some state) ∧
      (∀ input : String,
        (∃ id state, automaton.run? start input.toList = some id ∧
            automaton.state? id = some state ∧ automaton.accepts input = state.accepting) ∨
          ∃ place, automaton.StopsAt input place ∧ automaton.accepts input = false) ∧
      ∀ (more : List State) (input : String),
        (automaton.after (more.map .insert)).run? start input.toList =
            automaton.run? start input.toList ∧
          (automaton.after (more.map .insert)).accepts input = automaton.accepts input := by
  have closed := checked.closed
  refine ⟨fun id target state c here drawn => ?_, fun input place id reached => ?_, closed.verdict,
    fun more input => ⟨?_, ?_⟩⟩
  · exact state?_of_lt (closed.target_lt here drawn)
  · exact state?_of_lt (closed.run?_lt closed.start_lt reached)
  · exact closed.run?_congr state?_after_insert closed.start_lt
  · exact closed.accepts_congr state?_after_insert input

/-- One of the requests is refused, and the state added afterwards brings a transition to nowhere. -/
theorem checked_requests_keep_closed_refused :
    ∃ automaton : Dfa, automaton.Checked ∧
      (∃ place, automaton.StopsAt "aa" place ∧ automaton.accepts "aa" = false) ∧
      (automaton.after [.insert ((State.ofIds [2]).connect 'a' 7)]).accepts "a" = true := by
  let requests : List Request :=
    [.insert (.ofIds [1]), .connect 0 'a' 1, .connect 1 'a' 7, .edit 1 (.mark true)]
  have checked : ((ofStart (.ofIds [0])).after requests).Checked := by
    refine ⟨_, requests, rfl, ?_, rfl⟩
    simp [requests, Request.Checked, State.ofIds]
  obtain ⟨_, _, verdict, later⟩ := checked_requests_keep_closed _ checked
  have stops : ((ofStart (.ofIds [0])).after requests).run? start "aa".toList = none := by
    decide +kernel
  have accepted : ((ofStart (.ofIds [0])).after requests).accepts "a" = true := by decide +kernel
  refine ⟨_, checked, (verdict "aa").resolve_left ?_, ?_⟩
  · rintro ⟨id, _, ends, _⟩
    cases stops.symm.trans ends
  · exact (later [(State.ofIds [2]).connect 'a' 7] "a").2.trans accepted

end Dfa

end PatternAutomata
