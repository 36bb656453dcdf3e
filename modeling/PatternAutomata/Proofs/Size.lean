import PatternAutomata.Proofs.Compilation
import PatternAutomata.Proofs.PathSemantics
import PatternAutomata.Proofs.Refusals

/-! How large compiled automata are, and what labels their edges.

Every building step draws a fixed number of silent edges and adds two states or
none, so sizes are counted along the expression. Labelled edges come from the
literals alone, one from each, and reordering keeps the literals as they are.
-/

set_option autoImplicit false

namespace PatternAutomata

/-! ## Lists in which one entry changes -/

theorem flatMap_modify {α β : Type} {f : α → α} {g : α → List β} (keeps : ∀ a, g (f a) = g a)
    (list : List α) (place : Nat) : (list.modify place f).flatMap g = list.flatMap g := by
  induction list generalizing place with
  | nil => simp
  | cons a rest ih =>
    cases place with
    | zero => simp [keeps]
    | succ place => simp [ih]

theorem perm_flatMap_modify {α β : Type} {f : α → α} {g : α → List β} {b : β}
    (grows : ∀ a, g (f a) = g a ++ [b]) {list : List α} {place : Nat} (inside : place < list.length) :
    ((list.modify place f).flatMap g).Perm (b :: list.flatMap g) := by
  induction list generalizing place with
  | nil => cases inside
  | cons a rest ih =>
    cases place with
    | zero =>
      simp only [List.modify_zero_cons, List.flatMap_cons, grows, List.append_assoc]
      exact List.perm_middle
    | succ place =>
      simp only [List.modify_succ_cons, List.flatMap_cons]
      exact ((ih (Nat.lt_of_succ_lt_succ inside)).append_left (g a)).trans List.perm_middle

def Token.silent : Token → Nat
  | .connective .concat => 1
  | .connective .union | .quantifier .star => 4
  | .quantifier .plus | .quantifier .optional => 3
  | .literal _ | .openGroup | .closeGroup => 0

namespace Nfa

variable {automaton left right body : Nfa} {source target id : Nat} {label : Option Char}
  {accepting : Bool} {pairs : List (Nat × Nat)} {c : Char} {text : List Char}

/-! ## Labels -/

def labels (automaton : Nfa) : List (Option Char) := automaton.edges.map (·.label)

theorem labels_eq_flatMap :
    automaton.labels = automaton.states.toList.flatMap fun state => state.edges.map (·.label) := by
  rw [labels, edges, List.map_flatMap]

theorem length_labels : automaton.labels.length = automaton.edges.length := by
  rw [labels, List.length_map]

theorem labels_link (inside : source < automaton.size) :
    (automaton.link source label target).labels.Perm (label :: automaton.labels) := by
  simp only [labels_eq_flatMap, link, Array.toList_modify]
  exact perm_flatMap_modify (fun state => List.map_append) inside

theorem labels_linkAll (inside : ∀ pair ∈ pairs, pair.1 < automaton.size) :
    (automaton.linkAll pairs).labels.Perm (List.replicate pairs.length none ++ automaton.labels) := by
  unfold linkAll
  -- the edges are drawn one by one, so the automaton stays open
  induction pairs generalizing automaton with
  | nil => exact .refl _
  | cons pair rest ih =>
    obtain ⟨first, later⟩ := List.forall_mem_cons.mp inside
    have drawn : (automaton.link pair.1 none pair.2).labels.Perm (none :: automaton.labels) :=
      labels_link first
    have kept : ∀ other ∈ rest, other.1 < (automaton.link pair.1 none pair.2).size := by
      simpa only [size_link] using later
    exact (ih kept).trans ((drawn.append_left _).trans List.perm_middle)

theorem labels_flag : (automaton.flag id accepting).labels = automaton.labels := by
  simp only [labels_eq_flatMap, flag, Array.toList_modify]
  exact flatMap_modify (fun state => by rfl) automaton.states.toList id

theorem labels_moveAccept : (automaton.moveAccept id).labels = automaton.labels :=
  labels_flag.trans labels_flag

theorem labels_shift (state : State) (offset : Nat) :
    (state.shift offset).edges.map (·.label) = state.edges.map (·.label) := by
  simp only [State.shift, List.map_map, Function.comp_def]

theorem labels_adopt : (left.adopt right).labels = left.labels ++ right.labels := by
  simp only [labels_eq_flatMap, adopt, Array.toList_append, Array.toList_map, List.flatMap_append,
    List.flatMap_map, labels_shift]

theorem labels_enclose : body.enclose.labels = body.labels := by
  have widened : body.widen.labels = body.labels := by
    simp only [labels_eq_flatMap, widen, Array.toList_push, List.flatMap_append,
      List.flatMap_singleton, List.map_nil, List.append_nil]
  exact labels_moveAccept.trans widened

theorem labels_concat (one : left.WellFormed) (two : right.WellFormed) :
    (left.concat right).labels.Perm (none :: (left.labels ++ right.labels)) := by
  rw [concat_eq, labels_moveAccept, ← labels_adopt]
  exact labels_link (one.adopt two).accept_lt

theorem labels_enclosed (inside : ∀ pair ∈ pairs, pair.1 < body.size + 2) :
    (body.enclose.linkAll pairs).labels.Perm (List.replicate pairs.length none ++ body.labels) := by
  rw [← @labels_enclose body]
  apply labels_linkAll
  simpa only [size_enclose] using inside

theorem labels_joined (one : left.WellFormed) (two : right.WellFormed) (how : Connective) :
    (joined how left right).labels.Perm
      (List.replicate (Token.connective how).silent none ++ (left.labels ++ right.labels)) := by
  cases how with
  | concat => exact labels_concat one two
  | union =>
    have exit := one.accept_lt
    have other := two.accept_lt
    rw [joined, union_eq, ← labels_adopt]
    apply labels_enclosed
    simp
    omega

theorem labels_repeated (formed : body.WellFormed) (how : Quantifier) :
    (repeated how body).labels.Perm
      (List.replicate (Token.quantifier how).silent none ++ body.labels) := by
  have exit := formed.accept_lt
  cases how
  all_goals
    apply labels_enclosed
    simp
    omega

theorem mem_alphabet_iff_countP :
    c ∈ automaton.alphabet ↔ 0 < automaton.edges.countP (·.label = some c) := by
  simp only [alphabet, edges, Std.ExtTreeSet.mem_ofList, List.contains_iff_mem, List.mem_flatMap,
    List.mem_filterMap, List.countP_pos_iff, decide_eq_true_eq]
  constructor
  · rintro ⟨state, member, edge, drawn, label⟩
    exact ⟨edge, ⟨state, member, drawn⟩, label⟩
  · rintro ⟨edge, ⟨state, member, drawn⟩, label⟩
    exact ⟨state, member, edge, drawn, label⟩

theorem WellFormed.mem_alphabet_of_accepts (formed : automaton.WellFormed) {input : String}
    (accepted : automaton.accepts input = true) : ∀ c ∈ input.toList, c ∈ automaton.alphabet := by
  have path := formed.accepts_iff.mp accepted
  generalize automaton.start = source, automaton.accept = target, input.toList = text at path ⊢
  induction path with
  | here _ => exact List.forall_mem_nil _
  | silent _ _ ih => exact ih
  | read edge _ ih => exact List.forall_mem_cons.mpr ⟨mem_alphabet_iff.mpr ⟨_, _, edge⟩, ih⟩

/-! ## Sizes -/

theorem size_union : (left.union right).size = left.size + right.size + 2 := by
  rw [union_eq, size_linkAll, size_enclose, size_adopt]

theorem size_repeated (how : Quantifier) : (repeated how body).size = body.size + 2 := by
  cases how <;> simp [repeated, star_eq, plus_eq, optional_eq]

end Nfa

namespace Expr

open Token

theorem size_toNfa (e : Expr) :
    e.toNfa.size = 2 * (operands e.postorder + e.postorder.count (.connective .union) +
      e.postorder.countP isQuantifier) := by
  induction e with
  | literal c => rfl
  | joined how left right one two =>
    cases how with
    | concat =>
      rw [toNfa, Nfa.joined, Nfa.size_concat, one, two]
      simp [postorder, operands, isOperand, isQuantifier]
      omega
    | union =>
      rw [toNfa, Nfa.joined, Nfa.size_union, one, two]
      simp [postorder, operands, isOperand, isQuantifier]
      omega
  | repeated how body ih =>
    rw [toNfa, Nfa.size_repeated, ih]
    simp [postorder, operands, isOperand, isQuantifier]
    omega

theorem length_labels_toNfa (e : Expr) :
    e.toNfa.labels.length + 1 = 2 * operands e.postorder + 3 * e.postorder.count (.connective .union) +
      4 * e.postorder.count (.quantifier .star) + 3 * e.postorder.count (.quantifier .plus) +
      3 * e.postorder.count (.quantifier .optional) := by
  induction e with
  | literal c => rfl
  | joined how left right one two =>
    have drawn := (Nfa.labels_joined left.wellFormed_toNfa right.wellFormed_toNfa how).length_eq
    rw [List.length_append, List.length_append, List.length_replicate] at drawn
    rw [toNfa, drawn]
    -- both sides lack one edge of their count, and the first edge drawn makes up for one of the two
    cases how <;> simp [postorder, operands, isOperand, silent] at one two ⊢ <;> omega
  | repeated how body ih =>
    have drawn := (Nfa.labels_repeated body.wellFormed_toNfa how).length_eq
    rw [List.length_append, List.length_replicate] at drawn
    rw [toNfa, drawn]
    cases how <;> simp [postorder, operands, isOperand, silent] at ih ⊢ <;> omega

theorem count_union_lt_operands (e : Expr) :
    e.postorder.count (.connective .union) < operands e.postorder := by
  rw [e.operands_postorder, Nat.lt_succ_iff, connectives, List.count]
  refine List.countP_mono_left fun token _ union => ?_
  rw [eq_of_beq union]
  rfl

theorem count_labels_toNfa (e : Expr) (c : Char) :
    e.toNfa.labels.count (some c) = e.postorder.count (.literal c) := by
  induction e with
  | literal d =>
    change [some d].count (some c) = [Token.literal d].count (.literal c)
    simp [List.count_cons]
  | joined how left right one two =>
    have drawn := (Nfa.labels_joined left.wellFormed_toNfa right.wellFormed_toNfa how).count_eq (some c)
    rw [toNfa, drawn, List.count_append, List.count_append, one, two]
    simp [postorder, List.count_replicate]
  | repeated how body ih =>
    have drawn := (Nfa.labels_repeated body.wellFormed_toNfa how).count_eq (some c)
    rw [toNfa, drawn, List.count_append, ih]
    simp [postorder, List.count_replicate]

end Expr

/-! ## Counting characters -/

namespace Token

theorem countP_isQuantifier (tokens : List Token) :
    tokens.countP isQuantifier = tokens.count (.quantifier .star) +
      tokens.count (.quantifier .plus) + tokens.count (.quantifier .optional) := by
  induction tokens with
  | nil => rfl
  | cons token rest ih =>
    simp only [List.countP_cons, List.count_cons, ih]
    cases token with
    | quantifier how => cases how <;> simp [isQuantifier] <;> omega
    | _ => simp [isQuantifier]

theorem count_map_ofChar (text : List Char) (c : Char) :
    (text.map ofChar).count (ofChar c) = text.count c :=
  List.count_map_of_injective text ofChar (fun _ _ => ofChar_inj.mp) c

end Token

open Token

/-- Markers may be left out and brackets are dropped. All other tokens are those of the text. -/
theorem Derives.countP_postorder {level : Level} {text : List Char} {e : Expr} {test : Token → Bool}
    (derives : Derives level text e) (marker : test (.connective .concat) = false)
    (opens : test .openGroup = false) (closes : test .closeGroup = false) :
    e.postorder.countP test = (text.map ofChar).countP test := by
  have bar : ofChar '|' = .connective .union := rfl
  have dot : ofChar concatMarker = .connective .concat := rfl
  have bracket : ofChar '(' = .openGroup := rfl
  have closing : ofChar ')' = .closeGroup := rfl
  induction derives with
  | literal free => simp [Expr.postorder, ofChar_of_not_reserved free]
  | group _ ih => simp [ih, bracket, closing, opens, closes]
  | atom _ ih => exact ih
  | quantified how _ ih => simp [Expr.postorder, ih, ofChar_toChar_quantifier]
  | repetition _ ih => exact ih
  | implied _ _ first second => simp [Expr.postorder, first, second, marker]
  | written _ _ first second => simp [Expr.postorder, first, second, marker, dot]
  | concat _ ih => exact ih
  | union _ _ first second =>
    simp only [Expr.postorder, List.countP_append, List.map_append, List.map_cons, List.countP_cons,
      List.countP_nil, first, second, bar]
    omega

variable {pattern : String} {automaton : Nfa} {e : Expr}

theorem Derives.count_postorder (derives : Derives .union pattern.toList e) (c : Char)
    (kept : c ∉ [concatMarker, '(', ')']) :
    e.postorder.count (ofChar c) = pattern.toList.count c := by
  rw [← count_map_ofChar]
  simp only [List.mem_cons, List.not_mem_nil, or_false, not_or] at kept
  have apart {d : Char} (differ : c ≠ d) : (ofChar d == ofChar c) = false := by
    simpa [ofChar_inj] using differ.symm
  exact derives.countP_postorder (apart kept.1) (apart kept.2.1) (apart kept.2.2)

theorem Derives.operands_postorder (derives : Derives .union pattern.toList e) :
    operands e.postorder = pattern.toList.countP (· ∉ reserved) := by
  rw [← operands_map_ofChar]
  exact derives.countP_postorder rfl rfl rfl

theorem Derives.countP_label (derives : Derives .union pattern.toList e) (c : Char) :
    e.toNfa.edges.countP (·.label = some c) = if c ∈ reserved then 0 else pattern.toList.count c := by
  have labelled : e.toNfa.edges.countP (·.label = some c) = e.postorder.count (.literal c) := by
    rw [← e.count_labels_toNfa, List.count, Nfa.labels, List.countP_map]
    exact List.countP_congr fun edge _ => by simp
  have literals : e.postorder.count (.literal c) = (pattern.toList.map ofChar).count (.literal c) :=
    derives.countP_postorder rfl rfl rfl
  rw [labelled, literals]
  split
  · rename_i member
    refine List.count_eq_zero.mpr fun found => ?_
    obtain ⟨d, _, literal⟩ := List.mem_map.mp found
    obtain ⟨rfl, free⟩ := ofChar_eq_literal_iff.mp literal
    exact free member
  · rename_i free
    rw [← ofChar_of_not_reserved free, count_map_ofChar]

theorem Derives.size_and_edges (derives : Derives .union pattern.toList e) :
    e.toNfa.size = 2 * (pattern.toList.countP (· ∉ reserved) + pattern.toList.count '|' +
        pattern.toList.count '*' + pattern.toList.count '+' + pattern.toList.count '?') ∧
      pattern.toList.count '|' + 1 ≤ pattern.toList.countP (· ∉ reserved) ∧
      e.toNfa.edges.length = pattern.toList.countP (· ∉ reserved) +
        (pattern.toList.countP (· ∉ reserved) - 1 - pattern.toList.count '|') +
        4 * pattern.toList.count '|' + 4 * pattern.toList.count '*' +
        3 * pattern.toList.count '+' + 3 * pattern.toList.count '?' := by
  have literals := derives.operands_postorder
  have bars : e.postorder.count (.connective .union) = pattern.toList.count '|' :=
    derives.count_postorder '|' (by decide)
  have stars : e.postorder.count (.quantifier .star) = pattern.toList.count '*' :=
    derives.count_postorder '*' (by decide)
  have pluses : e.postorder.count (.quantifier .plus) = pattern.toList.count '+' :=
    derives.count_postorder '+' (by decide)
  have options : e.postorder.count (.quantifier .optional) = pattern.toList.count '?' :=
    derives.count_postorder '?' (by decide)
  have fewer := e.count_union_lt_operands
  have drawn := e.length_labels_toNfa
  rw [Nfa.length_labels] at drawn
  rw [e.size_toNfa, countP_isQuantifier]
  omega

/-- The characters of a pattern tell how many states and edges its automaton has, and which labels
the edges carry. Of the concatenations not all are in writing, but literals and bars tell how many
there are. -/
theorem characters_determine_size (known : compile pattern = .ok automaton) :
    ((∃ c ∈ pattern.toList, c ∉ reserved) →
      automaton.size = 2 * (pattern.toList.countP (· ∉ reserved) + pattern.toList.count '|' +
          pattern.toList.count '*' + pattern.toList.count '+' + pattern.toList.count '?') ∧
        pattern.toList.count '|' + 1 ≤ pattern.toList.countP (· ∉ reserved) ∧
        automaton.edges.length = pattern.toList.countP (· ∉ reserved) +
          (pattern.toList.countP (· ∉ reserved) - 1 - pattern.toList.count '|') +
          4 * pattern.toList.count '|' + 4 * pattern.toList.count '*' +
          3 * pattern.toList.count '+' + 3 * pattern.toList.count '?') ∧
      ((∀ c ∈ pattern.toList, c ∈ reserved) → automaton.size = 1 ∧ automaton.edges = []) ∧
      (∀ c, automaton.edges.countP (·.label = some c) =
        if c ∈ reserved then 0 else pattern.toList.count c) ∧
      (∀ c, c ∈ automaton.alphabet ↔ c ∈ pattern.toList ∧ c ∉ reserved) ∧
      ∀ text : String, (∃ c ∈ text.toList, c ∈ reserved ∨ c ∉ pattern.toList) →
        automaton.accepts text = false := by
  have formed : automaton.WellFormed := by
    rcases compile_eq_ok_cases known with ⟨_, _, rfl⟩ | ⟨e, _, rfl⟩
    · exact Nfa.wellFormed_empty
    · exact e.wellFormed_toNfa
  have labelled (c : Char) : automaton.edges.countP (·.label = some c) =
      if c ∈ reserved then 0 else pattern.toList.count c := by
    rcases compile_eq_ok_cases known with ⟨depth, same, rfl⟩ | ⟨e, derives, rfl⟩
    · have bare := mem_reserved_of_nested same
      split
      · rfl
      · rename_i free
        exact (List.count_eq_zero.mpr fun member => free (bare c member)).symm
    · exact derives.countP_label c
  have letters (c : Char) : c ∈ automaton.alphabet ↔ c ∈ pattern.toList ∧ c ∉ reserved := by
    rw [Nfa.mem_alphabet_iff_countP, labelled]
    split
    · rename_i member
      simp [member]
    · rename_i free
      simp [free, List.count_pos_iff]
  refine ⟨fun literal => ?_, fun bare => ?_, labelled, letters, fun text ⟨c, member, strange⟩ => ?_⟩
  · obtain ⟨e, derives, rfl⟩ := derives_of_literal known literal
    exact derives.size_and_edges
  · obtain ⟨_, _, rfl⟩ := eq_nested_of_reserved known bare
    exact ⟨rfl, rfl⟩
  · rw [Bool.eq_false_iff]
    intro accepted
    obtain ⟨known, free⟩ := (letters c).mp (formed.mem_alphabet_of_accepts accepted c member)
    exact strange.elim free (absurd known)

/-- One of the two concatenations is written out. -/
theorem characters_determine_size_implied :
    (Expr.joined .concat (.joined .concat (.literal 'a') (.repeated .star (.literal 'b')))
      (.literal 'a')).toNfa.edges.length = 9 ∧
    (Expr.joined .concat (.joined .concat (.literal 'a') (.repeated .star (.literal 'b')))
      (.literal 'a')).toNfa.accepts "a·a" = false := by
  have known : compile "ab*·a" = .ok (Expr.joined .concat (.joined .concat (.literal 'a')
      (.repeated .star (.literal 'b'))) (.literal 'a')).toNfa := by decide +kernel
  obtain ⟨counted, _, _, _, rejected⟩ := characters_determine_size known
  exact ⟨(counted ⟨'a', by decide, by decide⟩).2.2, rejected "a·a" ⟨'·', by decide, .inl (by decide)⟩⟩

end PatternAutomata
