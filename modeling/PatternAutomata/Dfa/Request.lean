import PatternAutomata.Dfa.Basic

/-! Requests to a deterministic automaton, one after another.

A state can be added, connected to another one, or edited in place. An edit
cannot change what the state stands for. A request that names a state which
does not exist leaves the automaton as it was.
-/

set_option autoImplicit false

namespace PatternAutomata

namespace Dfa

inductive Edit where
  | connect (c : Char) (target : Nat)
  | mark (accepting : Bool)

/-- Where a new transition leads is not checked. -/
def Edit.apply : Edit → State → State
  | .connect c target, state => state.connect c target
  | .mark accepting, state => state.withAccepting accepting

theorem Edit.members_apply (edit : Edit) (state : State) :
    (edit.apply state).members = state.members := by
  cases edit <;> rfl

inductive Request where
  | insert (state : State)
  | connect (source : Nat) (c : Char) (target : Nat)
  | edit (id : Nat) (edit : Edit)

inductive Answer where
  | inserted (id : Nat) (isNew : Bool)
  | done
  | refused (reason : Diagnostic)
  | absent
  deriving DecidableEq, Repr

def respond (automaton : Dfa) : Request → Dfa × Answer
  | .insert state =>
    let added := automaton.insert state
    (added.automaton, .inserted added.id added.isNew)
  | .connect source c target =>
    match automaton.connect source c target with
    | .ok changed => (changed, .done)
    | .error reason => (automaton, .refused reason)
  | .edit id edit =>
    match automaton.update? id edit.apply with
    | some changed => (changed, .done)
    | none => (automaton, .absent)

def after (automaton : Dfa) (requests : List Request) : Dfa :=
  requests.foldl (fun automaton request => (automaton.respond request).1) automaton

end Dfa

end PatternAutomata
