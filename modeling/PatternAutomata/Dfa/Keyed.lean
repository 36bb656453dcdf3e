import PatternAutomata.Dfa.Request

/-! Deterministic automata as tables in which every set is written twice.

Each entry has a key beside its state. A set is looked up among the keys, and an
edit reaches the state but not the key, so that the two copies of a set could
come to differ.
-/

set_option autoImplicit false

namespace PatternAutomata

namespace Dfa

structure Entry where
  key : StateSet
  state : State

def Entry.edit (entry : Entry) (edit : Edit) : Entry := { entry with state := edit.apply entry.state }

/-- The entries of an insertion-ordered map, each with its key, at the places where they were
inserted. -/
structure Keyed where
  entries : Array Entry

namespace Keyed

def ofStart (start : State) : Keyed := ⟨#[⟨start.members, start⟩]⟩

def size (table : Keyed) : Nat := table.entries.size

def state? (table : Keyed) (id : Nat) : Option State := table.entries[id]?.map (·.state)

def find? (table : Keyed) (set : StateSet) : Option Nat :=
  table.entries.findIdx? fun entry => decide (entry.key = set)

def edit? (table : Keyed) (id : Nat) (edit : Edit) : Option Keyed :=
  if id < table.size then some ⟨table.entries.modify id (·.edit edit)⟩ else none

def respond (table : Keyed) : Request → Keyed × Answer
  | .insert state =>
    match table.find? state.members with
    | some id => (table, .inserted id false)
    | none => (⟨table.entries.push ⟨state.members, state⟩⟩, .inserted table.size true)
  | .connect source c target =>
    if target < table.size then
      match table.edit? source (.connect c target) with
      | some changed => (changed, .done)
      | none => (table, .refused { fault := .unknownState source })
    else (table, .refused { fault := .unknownState target })
  | .edit id edit =>
    match table.edit? id edit with
    | some changed => (changed, .done)
    | none => (table, .absent)

def after (table : Keyed) (requests : List Request) : Keyed :=
  requests.foldl (fun table request => (table.respond request).1) table

end Keyed

end Dfa

end PatternAutomata
