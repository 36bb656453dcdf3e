import PatternAutomata.Dfa.Listing

/-! Automata are known from their listings.

Labels are written as they are, so a label may look like a quote, a bracket or
the end of a line. But a label is a single character, and a number ends at the
first character that is no digit. So where a part of a listing ends is known
without looking for a delimiter.
-/

set_option autoImplicit false

namespace PatternAutomata

/-- The text has ended, or its next character is of the given kind. -/
def Continues (kind : Char → Prop) (text : List Char) : Prop := ∀ c ∈ text.head?, kind c

/-- The value that a text begins with and what is written behind it are both known, as long as that
continues in the given way. -/
def Delimited {α : Type} (kind : Char → Prop) (write : α → List Char) : Prop :=
  ∀ ⦃a b : α⦄ ⦃rest other : List Char⦄, Continues kind rest → Continues kind other →
    write a ++ rest = write b ++ other → a = b ∧ rest = other

variable {α : Type} {write : α → List Char} {within behind kind : Char → Prop} {c : Char}
  {text rest : List Char}

@[simp] theorem continues_nil : Continues kind [] := by simp [Continues]

@[simp] theorem continues_cons : Continues kind (c :: text) ↔ kind c := by simp [Continues]

theorem Continues.mono (continues : Continues behind text) (ends : ∀ c, behind c → within c) :
    Continues within text := fun c member => ends c (continues c member)

theorem Delimited.cons (item : Delimited within write) {a b : α} {other : List Char} (ends : within c)
    (same : write a ++ c :: rest = write b ++ c :: other) : a = b ∧ rest = other := by
  obtain ⟨value, behind⟩ := item (continues_cons.mpr ends) (continues_cons.mpr ends) same
  exact ⟨value, List.tail_eq_of_cons_eq behind⟩

/-! ## Values in a row -/

theorem Delimited.prefixed (item : Delimited within write) (mark : List Char) :
    Delimited within fun a => mark ++ write a := by
  intro a b rest other before after same
  simp only [List.append_assoc, List.append_cancel_left_eq] at same
  exact item before after same

/-- What a value begins with may follow the value before it, and does not follow the last one. -/
def Opens (within behind : Char → Prop) (write : α → List Char) : Prop :=
  ∀ a, ∃ c text, write a = c :: text ∧ within c ∧ ¬behind c

theorem Opens.ne (opens : Opens within behind write) (continues : Continues behind rest) (a : α)
    (other : List Char) : rest ≠ write a ++ other := by
  obtain ⟨c, text, begins, _, apart⟩ := opens a
  rintro rfl
  rw [begins, List.cons_append, continues_cons] at continues
  exact apart continues

theorem Opens.continues (opens : Opens within behind write) (ends : ∀ c, behind c → within c)
    (continues : Continues behind rest) (values : List α) :
    Continues within (values.flatMap write ++ rest) := by
  cases values with
  | nil => exact continues.mono ends
  | cons a values =>
    obtain ⟨c, text, begins, allowed, _⟩ := opens a
    simpa [begins] using allowed

/-- Values may be written side by side if their first characters tell them from the end. -/
theorem Delimited.flatMap (item : Delimited within write) (opens : Opens within behind write)
    (ends : ∀ c, behind c → within c) : Delimited behind (List.flatMap write) := by
  intro values others rest other before after same
  induction values generalizing others with
  | nil =>
    cases others with
    | nil => exact ⟨rfl, same⟩
    | cons b others =>
      rw [List.flatMap_cons, List.append_assoc] at same
      exact absurd same (opens.ne before b _)
  | cons a values ih =>
    cases others with
    | nil =>
      rw [List.flatMap_cons, List.append_assoc] at same
      exact absurd same.symm (opens.ne after a _)
    | cons b others =>
      rw [List.flatMap_cons, List.flatMap_cons, List.append_assoc, List.append_assoc] at same
      obtain ⟨rfl, rests⟩ := item (opens.continues ends before values)
        (opens.continues ends after others) same
      obtain ⟨rfl, left⟩ := ih rests
      exact ⟨rfl, left⟩

def separated (write : α → List Char) (values : List α) : List Char :=
  ", ".toList.intercalate (values.map write)

theorem separated_cons (a : α) (values : List α) :
    separated write (a :: values) = write a ++ values.flatMap (", ".toList ++ write ·) := by
  induction values generalizing a with
  | nil => simp [separated]
  | cons b values ih =>
    simp only [separated, List.map_cons, List.intercalate_cons_cons] at ih ⊢
    rw [ih b, List.flatMap_cons, List.append_assoc, List.append_assoc]

theorem Delimited.separated (item : Delimited within write)
    (opens : Opens (fun _ => True) behind write) (comma : within ',' ∧ ¬behind ',')
    (ends : ∀ c, behind c → within c) : Delimited behind (separated write) := by
  have more : Opens within behind (", ".toList ++ write ·) := fun a => ⟨_, _, rfl, comma⟩
  have tails : Delimited behind (List.flatMap (", ".toList ++ write ·)) :=
    (item.prefixed _).flatMap more ends
  intro values others rest other before after same
  cases values with
  | nil =>
    cases others with
    | nil => exact ⟨rfl, same⟩
    | cons b others =>
      rw [separated_cons, List.append_assoc] at same
      exact absurd same (opens.ne before b _)
  | cons a values =>
    cases others with
    | nil =>
      rw [separated_cons, List.append_assoc] at same
      exact absurd same.symm (opens.ne after a _)
    | cons b others =>
      rw [separated_cons, separated_cons, List.append_assoc, List.append_assoc] at same
      obtain ⟨rfl, rests⟩ := item (more.continues ends before values)
        (more.continues ends after others) same
      obtain ⟨rfl, left⟩ := tails before after rests
      exact ⟨rfl, left⟩

/-! ## Numbers and marks -/

def NoDigit (c : Char) : Prop := c.isDigit = false

theorem exists_digit (n : Nat) :
    ∃ digit more, Nat.toDigits 10 n = digit :: more ∧ digit.isDigit = true := by
  obtain ⟨digit, more, number⟩ := List.exists_cons_of_ne_nil
    (Nat.toDigits_ne_nil : Nat.toDigits 10 n ≠ [])
  exact ⟨digit, more, number,
    Nat.isDigit_of_mem_toDigits (by decide) (by decide) (number ▸ List.mem_cons_self)⟩

theorem takeWhile_isDigit_append {digits : List Char} (numeral : ∀ c ∈ digits, c.isDigit = true)
    (stops : Continues NoDigit rest) : (digits ++ rest).takeWhile Char.isDigit = digits := by
  have none : rest.takeWhile Char.isDigit = [] := by
    cases rest with
    | nil => rfl
    | cons c rest =>
      have other : ¬c.isDigit = true := Bool.eq_false_iff.mp (continues_cons.mp stops)
      exact List.takeWhile_cons_of_neg other
  rw [List.takeWhile_append_of_pos numeral, none, List.append_nil]

theorem delimited_toDigits : Delimited NoDigit (Nat.toDigits 10) := by
  intro m n rest other before after same
  have numeral (n : Nat) : ∀ c ∈ Nat.toDigits 10 n, c.isDigit = true := fun c =>
    Nat.isDigit_of_mem_toDigits (by decide) (by decide)
  have digits : Nat.toDigits 10 m = Nat.toDigits 10 n := by
    rw [← takeWhile_isDigit_append (numeral m) before, same,
      takeWhile_isDigit_append (numeral n) after]
  rw [digits, List.append_cancel_left_eq] at same
  refine ⟨?_, same⟩
  calc m = Nat.ofDigitChars 10 (Nat.toDigits 10 m) 0 := Nat.ofDigitChars_ten_toDigits.symm
    _ = Nat.ofDigitChars 10 (Nat.toDigits 10 n) 0 := by rw [digits]
    _ = n := Nat.ofDigitChars_ten_toDigits

theorem delimited_acceptingMark :
    Delimited (· ≠ '*') fun accepting => (acceptingMark accepting).toList := by
  intro a b rest other before after same
  cases a with
  | false =>
    cases b with
    | false => exact ⟨rfl, same⟩
    | true =>
      change rest = '*' :: other at same
      rw [same, continues_cons] at before
      exact absurd rfl before
  | true =>
    cases b with
    | false =>
      change '*' :: rest = other at same
      rw [← same, continues_cons] at after
      exact absurd rfl after
    | true => exact ⟨rfl, List.tail_eq_of_cons_eq same⟩

theorem continues_acceptingMark (accepting : Bool) (stops : NoDigit c) :
    Continues NoDigit ((acceptingMark accepting).toList ++ c :: text) := by
  cases accepting with
  | false => exact continues_cons.mpr stops
  | true => exact continues_cons.mpr rfl

/-! ## Nondeterministic automata -/

namespace Nfa

theorem Edge.toList_listing_silent (target : Nat) :
    (Edge.mk none target).listing.toList =
      'ε' :: ' ' :: '-' :: '>' :: ' ' :: Nat.toDigits 10 target := by
  simp [listing, toString]

theorem Edge.toList_listing_labelled (c : Char) (target : Nat) :
    (Edge.mk (some c) target).listing.toList =
      '\'' :: c :: '\'' :: ' ' :: '-' :: '>' :: ' ' :: Nat.toDigits 10 target := by
  simp [listing, toString]

theorem Edge.delimited : Delimited NoDigit fun edge : Edge => edge.listing.toList := by
  rintro ⟨label, near⟩ ⟨mark, far⟩ rest other before after same
  -- the first character tells if there is a label, and then the second one is the label
  cases label with
  | none =>
    cases mark with
    | none =>
      simp only [toList_listing_silent, List.cons_append, List.cons.injEq, true_and] at same
      obtain ⟨rfl, left⟩ := delimited_toDigits before after same
      exact ⟨rfl, left⟩
    | some d =>
      simp [toList_listing_silent, toList_listing_labelled] at same
  | some c =>
    cases mark with
    | none =>
      simp [toList_listing_silent, toList_listing_labelled] at same
    | some d =>
      simp only [toList_listing_labelled, List.cons_append, List.cons.injEq, true_and] at same
      obtain ⟨rfl, numbers⟩ := same
      obtain ⟨rfl, left⟩ := delimited_toDigits before after numbers
      exact ⟨rfl, left⟩

theorem Edge.opens :
    Opens (fun _ => True) (· = ']') fun edge : Edge => edge.listing.toList := by
  rintro ⟨label, target⟩
  cases label with
  | none => exact ⟨_, _, toList_listing_silent target, trivial, by decide⟩
  | some c => exact ⟨_, _, toList_listing_labelled c target, trivial, by decide⟩

theorem delimited_edges :
    Delimited (· = ']') (separated fun edge : Edge => edge.listing.toList) := by
  refine Edge.delimited.separated Edge.opens ⟨rfl, by decide⟩ ?_
  rintro _ rfl
  rfl

def State.line (state : State) : List Char := (state.listing ++ "\n").toList

theorem State.line_eq (state : State) :
    state.line = Nat.toDigits 10 state.id ++ ((acceptingMark state.accepting).toList ++
      ':' :: ' ' :: '[' :: (separated (·.listing.toList) state.edges ++ [']', '\n'])) := by
  simp [line, listing, separated, Function.comp_def]

theorem State.delimited_line : Delimited (fun _ => True) State.line := by
  rintro ⟨id, edges, accepting⟩ ⟨number, others, flag⟩ rest other _ _ same
  have colon : NoDigit ':' := rfl
  simp only [line_eq, List.append_assoc, List.cons_append, List.nil_append] at same
  obtain ⟨rfl, marked⟩ := delimited_toDigits (continues_acceptingMark accepting colon)
    (continues_acceptingMark flag colon) same
  obtain ⟨rfl, listed⟩ := delimited_acceptingMark.cons (by decide) marked
  simp only [List.cons.injEq, true_and] at listed
  obtain ⟨rfl, left⟩ := delimited_edges.cons rfl listed
  exact ⟨rfl, List.tail_eq_of_cons_eq left⟩

theorem State.opens_line : Opens (fun _ => True) (fun _ => False) State.line := by
  intro state
  obtain ⟨digit, more, number, _⟩ := exists_digit state.id
  exact ⟨digit, _, state.line_eq.trans (congrArg (· ++ _) number), trivial, not_false⟩

theorem delimited_lines : Delimited (fun _ => False) (List.flatMap State.line) :=
  State.delimited_line.flatMap State.opens_line fun _ => False.elim

theorem toList_listing (automaton : Nfa) :
    automaton.listing.toList = "start: ".toList ++ (Nat.toDigits 10 automaton.start ++
      ',' :: (" accept: ".toList ++ (Nat.toDigits 10 automaton.accept ++
        '\n' :: (automaton.states.toList.flatMap State.line ++ [])))) := by
  have lines : State.line = fun state => state.listing.toList ++ ['\n'] := by
    funext state
    simp [State.line]
  simp [listing, toString, List.flatMap_map, lines]

theorem listing_injective : Function.Injective listing := by
  rintro ⟨states, start, accept⟩ ⟨others, entry, exit⟩ same
  have comma : NoDigit ',' := rfl
  have line : NoDigit '\n' := rfl
  have texts := congrArg String.toList same
  simp only [toList_listing, List.append_cancel_left_eq] at texts
  obtain ⟨rfl, accepts⟩ := delimited_toDigits.cons comma texts
  rw [List.append_cancel_left_eq] at accepts
  obtain ⟨rfl, listed⟩ := delimited_toDigits.cons line accepts
  obtain ⟨rows, _⟩ := delimited_lines continues_nil continues_nil listed
  rw [Array.toList_inj.mp rows]

end Nfa

/-! ## Deterministic automata -/

namespace Dfa

def transitionText (transition : Char × Nat) : List Char :=
  ' ' :: '\'' :: transition.1 :: '\'' :: ' ' :: '-' :: '>' :: ' ' :: Nat.toDigits 10 transition.2

theorem delimited_transitionText : Delimited NoDigit transitionText := by
  rintro ⟨c, near⟩ ⟨d, far⟩ rest other before after same
  simp only [transitionText, List.cons_append, List.cons.injEq, true_and] at same
  obtain ⟨rfl, numbers⟩ := same
  obtain ⟨rfl, left⟩ := delimited_toDigits before after numbers
  exact ⟨rfl, left⟩

theorem delimited_transitions : Delimited (· = '\n') (List.flatMap transitionText) := by
  refine delimited_transitionText.flatMap (fun transition => ⟨' ', _, rfl, rfl, by decide⟩) ?_
  rintro _ rfl
  rfl

theorem delimited_members : Delimited (· = '\x7d') (separated (Nat.toDigits 10)) := by
  refine delimited_toDigits.separated (fun id => ?_) ⟨rfl, by decide⟩ ?_
  · obtain ⟨digit, more, number, numeral⟩ := exists_digit id
    refine ⟨digit, more, number, trivial, ?_⟩
    rintro rfl
    cases numeral
  · rintro _ rfl
    rfl

def State.line (entry : State × Nat) : List Char :=
  (toString entry.2 ++ " " ++ entry.1.listing ++ ":" ++ entry.1.transitionListing ++ "\n").toList

theorem State.line_eq (state : State) (id : Nat) :
    State.line (state, id) = Nat.toDigits 10 id ++ ' ' :: '\x7b' ::
      (separated (Nat.toDigits 10) state.members.toList ++ '\x7d' ::
        ((acceptingMark state.accepting).toList ++ ':' ::
          (state.transitions.toList.flatMap transitionText ++ ['\n']))) := by
  simp [line, listing, transitionListing, separated, Function.comp_def, List.flatMap_map, toString]
  rfl

theorem State.delimited_line : Delimited (fun _ => True) State.line := by
  rintro ⟨state, id⟩ ⟨second, number⟩ rest other _ _ same
  obtain ⟨members, transitions, accepting⟩ := state
  obtain ⟨set, moves, flag⟩ := second
  have space : NoDigit ' ' := rfl
  simp only [line_eq, List.append_assoc, List.cons_append, List.nil_append] at same
  obtain ⟨rfl, described⟩ := delimited_toDigits.cons space same
  obtain ⟨ids, marked⟩ := delimited_members.cons rfl (List.tail_eq_of_cons_eq described)
  obtain rfl := Std.ExtTreeSet.toList_inj.mp ids
  obtain ⟨rfl, listed⟩ := delimited_acceptingMark.cons (by decide) marked
  obtain ⟨pairs, left⟩ := delimited_transitions.cons rfl listed
  obtain rfl := Std.ExtTreeMap.toList_inj.mp pairs
  exact ⟨rfl, left⟩

theorem State.opens_line : Opens (fun _ => True) (fun _ => False) State.line := by
  rintro ⟨state, id⟩
  obtain ⟨digit, more, number, _⟩ := exists_digit id
  exact ⟨digit, _, (state.line_eq id).trans (congrArg (· ++ _) number), trivial, not_false⟩

theorem delimited_lines : Delimited (fun _ => False) (List.flatMap State.line) :=
  State.delimited_line.flatMap State.opens_line fun _ => False.elim

theorem toList_listing (automaton : Dfa) :
    automaton.listing.toList = automaton.states.toList.zipIdx.flatMap State.line ++ [] := by
  rw [listing, String.toList_join, List.flatMap_map, List.append_nil]
  rfl

theorem listing_injective : Function.Injective listing := by
  rintro ⟨states⟩ ⟨others⟩ same
  have texts := congrArg String.toList same
  rw [toList_listing, toList_listing] at texts
  obtain ⟨rows, _⟩ := delimited_lines continues_nil continues_nil texts
  have listed := congrArg (List.map Prod.fst) rows
  rw [List.zipIdx_map_fst, List.zipIdx_map_fst] at listed
  exact congrArg Dfa.mk (Array.toList_inj.mp listed)

theorem ext_state? {first second : Dfa} (states : ∀ id, first.state? id = second.state? id) :
    first = second := by
  obtain ⟨states⟩ := first
  exact congrArg Dfa.mk (Array.ext_getElem? states)

end Dfa

/-- Two automata have the same listing just if they are the same, whatever their labels. A
deterministic automaton is its states in order: each with the set it stands for, its flag and its
transitions. -/
theorem listings_are_unambiguous :
    (∀ first second : Nfa, first.listing = second.listing ↔ first = second) ∧
      ∀ first second : Dfa, first.listing = second.listing ↔
        first.size = second.size ∧ ∀ id, first.state? id = second.state? id := by
  refine ⟨fun first second => Nfa.listing_injective.eq_iff, fun first second => ⟨?_, ?_⟩⟩
  · intro same
    rw [Dfa.listing_injective same]
    exact ⟨rfl, fun _ => rfl⟩
  · rintro ⟨_, states⟩
    rw [Dfa.ext_state? states]

end PatternAutomata
