import PatternAutomata.Expr
import PatternAutomata.Nfa.Basic

/-! Automata built from smaller ones.

A combined automaton keeps the states of its left part where they are and
numbers those of its right part after them. New states come last. Only the
accept state carries the accepting flag, so each step that moves the accept
state moves the flag with it.
-/

set_option autoImplicit false

namespace PatternAutomata

namespace Nfa

/-- Draw an edge, after all others of its source. -/
def link (automaton : Nfa) (source : Nat) (label : Option Char) (target : Nat) : Nfa :=
  { automaton with
    states := automaton.states.modify source fun state =>
      { state with edges := state.edges ++ [⟨label, target⟩] } }

def linkAll (automaton : Nfa) (pairs : List (Nat × Nat)) : Nfa :=
  pairs.foldl (fun automaton pair => automaton.link pair.1 none pair.2) automaton

def flag (automaton : Nfa) (id : Nat) (accepting : Bool) : Nfa :=
  { automaton with
    states := automaton.states.modify id fun state => { state with accepting } }

def moveAccept (automaton : Nfa) (id : Nat) : Nfa :=
  { (automaton.flag automaton.accept false).flag id true with accept := id }

def State.shift (state : State) (offset : Nat) : State where
  id := state.id + offset
  edges := state.edges.map fun edge => { edge with target := edge.target + offset }
  accepting := false

def adopt (left right : Nfa) : Nfa :=
  let offset := left.size
  { left with states := left.states ++ right.states.map (·.shift offset) }

/-- Give the automaton a new start and a new accept state, not yet connected. -/
def enclose (automaton : Nfa) : Nfa :=
  let fresh := automaton.size
  { states := (automaton.states.push { id := fresh }).push { id := fresh + 1 }
    start := fresh
    -- the old accept state is named here so that it loses its flag
    accept := automaton.accept : Nfa }.moveAccept (fresh + 1)

def empty : Nfa where
  states := #[{ id := 0, accepting := true }]
  start := 0
  accept := 0

def literal (c : Char) : Nfa where
  states := #[{ id := 0, edges := [⟨some c, 1⟩] }, { id := 1, accepting := true }]
  start := 0
  accept := 1

def concat (left right : Nfa) : Nfa :=
  let offset := left.size
  let exit := left.accept
  ((left.adopt right).link exit none (right.start + offset)).moveAccept (right.accept + offset)

def union (left right : Nfa) : Nfa :=
  let offset := left.size
  let entry := left.start
  let exit := left.accept
  let whole := (left.adopt right).enclose
  whole.linkAll
    [(whole.start, entry), (whole.start, right.start + offset),
      (exit, whole.accept), (right.accept + offset, whole.accept)]

-- Around the body of a quantifier there is a way past it, or a way back, or both.
def star (body : Nfa) : Nfa :=
  let entry := body.start
  let exit := body.accept
  let whole := body.enclose
  whole.linkAll
    [(whole.start, whole.accept), (whole.start, entry), (exit, whole.accept), (exit, entry)]

def optional (body : Nfa) : Nfa :=
  let entry := body.start
  let exit := body.accept
  let whole := body.enclose
  whole.linkAll [(whole.start, entry), (exit, whole.accept), (whole.start, whole.accept)]

def plus (body : Nfa) : Nfa :=
  let entry := body.start
  let exit := body.accept
  let whole := body.enclose
  whole.linkAll [(whole.start, entry), (exit, whole.accept), (whole.accept, whole.start)]

def joined : Connective → Nfa → Nfa → Nfa
  | .concat => concat
  | .union => union

def repeated : Quantifier → Nfa → Nfa
  | .star => star
  | .plus => plus
  | .optional => optional

end Nfa

def Expr.toNfa : Expr → Nfa
  | .literal c => .literal c
  | .joined how left right => .joined how left.toNfa right.toNfa
  | .repeated how body => .repeated how body.toNfa

end PatternAutomata
