import PatternAutomata.Proofs.Assembly
import PatternAutomata.Proofs.Regrouping

/-! How few edges a state of a built automaton has.

A building step draws silent edges only, from states with at most one silent edge
and to states that no label leads to. So no state ever has more than three of
them, and the two states of a literal stay as they are but for the edges that
leave the second one.
-/

set_option autoImplicit false

namespace PatternAutomata

namespace Nfa

/-- One edge with a label, or at most three without. -/
inductive Sparse : List Edge → Prop where
  | labelled (c : Char) (target : Nat) : Sparse [⟨some c, target⟩]
  | silent {edges : List Edge} : (∀ edge ∈ edges, edge.label = none) → edges.length ≤ 3 → Sparse edges

inductive Loose : List Edge → Prop where
  | nil : Loose []
  | single (target : Nat) : Loose [⟨none, target⟩]

def Unread (automaton : Nfa) (id : Nat) : Prop :=
  ∀ ⦃source c⦄, ¬automaton.HasEdge source (some c) id

structure Shaped (automaton : Nfa) : Prop where
  sparse : ∀ id, Sparse (automaton.leaving id)
  entered : ∀ {source target : Nat} {c : Char}, automaton.HasEdge source (some c) target →
    target = source + 1 ∧ ∀ near mark, automaton.HasEdge near mark target → near = source

/-- More silent edges may be drawn to the start state and from the accept state. -/
structure Linkable (automaton : Nfa) : Prop extends automaton.Shaped where
  entry : automaton.Unread automaton.start
  exit : Loose (automaton.leaving automaton.accept)

variable {automaton later left right body : Nfa} {id source target : Nat}
  {label : Option Char} {c : Char} {edges : List Edge} {pairs : List (Nat × Nat)}

theorem hasEdge_iff_mem_leaving :
    automaton.HasEdge source label target ↔ ⟨label, target⟩ ∈ automaton.leaving source := by
  unfold HasEdge leaving
  cases automaton.state? source <;> simp

theorem Loose.label_eq (loose : Loose edges) : ∀ edge ∈ edges, edge.label = none := by
  cases loose <;> simp

theorem Loose.length_le (loose : Loose edges) : edges.length ≤ 1 := by
  cases loose <;> simp

theorem Loose.eq_nil_or_single (loose : Loose edges) :
    edges = [] ∨ ∃ target, edges = [⟨none, target⟩] := by
  cases loose with
  | nil => exact .inl rfl
  | single target => exact .inr ⟨target, rfl⟩

theorem Loose.sparse (loose : Loose edges) : Sparse edges :=
  .silent loose.label_eq (Nat.le_trans loose.length_le (by decide))

theorem Loose.shift (loose : Loose edges) (offset : Nat) : Loose (edges.map (·.shift offset)) := by
  cases loose with
  | nil => exact .nil
  | single target => exact .single (target + offset)

theorem Sparse.shift (sparse : Sparse edges) (offset : Nat) : Sparse (edges.map (·.shift offset)) := by
  cases sparse with
  | labelled c target => exact .labelled c (target + offset)
  | silent plain few =>
    constructor
    · intro edge moved
      obtain ⟨origin, member, rfl⟩ := List.mem_map.mp moved
      exact plain origin member
    · rwa [List.length_map]

theorem Sparse.eq_singleton (sparse : Sparse edges) {edge : Edge} (member : edge ∈ edges)
    (reads : edge.label = some c) : edges = [edge] := by
  cases sparse with
  | labelled d target => rw [List.mem_singleton.mp member]
  | silent plain _ => cases (plain edge member).symm.trans reads

theorem loose_of_le (outside : automaton.size ≤ id) : Loose (automaton.leaving id) := by
  rw [leaving_eq_nil outside]
  exact .nil

theorem WellFormed.unread_of_le (formed : automaton.WellFormed) (outside : automaton.size ≤ id) :
    automaton.Unread id := fun _ _ edge =>
  absurd (formed.target_lt edge) (Nat.not_lt.mpr outside)

/-! ## Drawing silent edges -/

theorem Loose.drawn (loose : Loose edges) (few : pairs.length ≤ 2) :
    Sparse (edges ++ pairs.map fun pair => ⟨none, pair.2⟩) := by
  refine .silent (fun edge member => ?_) ?_
  · rcases List.mem_append.mp member with old | new
    · exact loose.label_eq edge old
    · obtain ⟨_, _, rfl⟩ := List.mem_map.mp new
      rfl
  · have before := loose.length_le
    rw [List.length_append, List.length_map]
    omega

/-- Edges drawn from states with at most one edge, at most two from each, leave all states sparse. If
they lead to no state that a label leads to, then such states are entered as before. -/
theorem Shaped.linked (shaped : automaton.Shaped) (pairs : List (Nat × Nat))
    (drawn : ∀ id, later.leaving id =
      automaton.leaving id ++ (pairs.filter (·.1 = id)).map fun pair => ⟨none, pair.2⟩)
    (sources : ∀ pair ∈ pairs, Loose (automaton.leaving pair.1))
    (few : ∀ id, pairs.countP (·.1 = id) ≤ 2)
    (targets : ∀ pair ∈ pairs, automaton.Unread pair.2) : later.Shaped where
  sparse := by
    intro id
    rw [drawn]
    by_cases fresh : pairs.filter (·.1 = id) = []
    · rw [fresh, List.map_nil, List.append_nil]
      exact shaped.sparse id
    · obtain ⟨pair, found⟩ := List.exists_mem_of_ne_nil _ fresh
      obtain ⟨member, same⟩ := List.mem_filter.mp found
      have loose : Loose (automaton.leaving id) := of_decide_eq_true same ▸ sources pair member
      exact loose.drawn (List.countP_eq_length_filter ▸ few id)
  entered := by
    have origin (near : Nat) (mark : Option Char) (far : Nat) (edge : later.HasEdge near mark far) :
        automaton.HasEdge near mark far ∨ mark = none ∧ automaton.Unread far := by
      rw [hasEdge_iff_mem_leaving, drawn, List.mem_append, ← hasEdge_iff_mem_leaving] at edge
      refine edge.imp_right fun new => ?_
      obtain ⟨pair, found, same⟩ := List.mem_map.mp new
      cases same
      exact ⟨rfl, targets pair (List.mem_of_mem_filter found)⟩
    intro source target c edge
    obtain old | ⟨silent, _⟩ := origin _ _ _ edge
    · obtain ⟨next, only⟩ := shaped.entered old
      refine ⟨next, fun near mark other => ?_⟩
      obtain old' | ⟨_, unread⟩ := origin _ _ _ other
      · exact only near mark old'
      · exact (unread old).elim
    · cases silent

theorem Shaped.adopt (one : left.Shaped) (two : right.Shaped) (first : left.WellFormed) :
    (left.adopt right).Shaped where
  sparse := by
    intro id
    rw [leaving_adopt]
    split
    · exact one.sparse id
    · exact (two.sparse _).shift left.size
  entered := by
    intro source target c edge
    rcases hasEdge_adopt.mp edge with old | ⟨near, far, moved, rfl, rfl⟩
    · obtain ⟨next, only⟩ := one.entered old
      refine ⟨next, fun near mark other => ?_⟩
      rcases hasEdge_adopt.mp other with same | ⟨_, far, _, _, rfl⟩
      · exact only near mark same
      · have inside := first.target_lt old
        omega
    · obtain ⟨next, only⟩ := two.entered moved
      refine ⟨by omega, fun other mark entering => ?_⟩
      rcases hasEdge_adopt.mp entering with old | ⟨place, goal, same, rfl, reached⟩
      · have inside := first.target_lt old
        omega
      · obtain rfl : far = goal := Nat.add_right_cancel reached
        rw [only place mark same]

theorem unread_adopt_left (unread : left.Unread id) (inside : id < left.size) :
    (left.adopt right).Unread id := by
  intro source c edge
  rcases hasEdge_adopt.mp edge with old | ⟨_, far, _, _, rfl⟩
  · exact unread old
  · omega

theorem unread_adopt_right (first : left.WellFormed) (unread : right.Unread id) :
    (left.adopt right).Unread (id + left.size) := by
  intro source c edge
  rcases hasEdge_adopt.mp edge with old | ⟨_, far, moved, _, same⟩
  · have inside := first.target_lt old
    omega
  · obtain rfl : id = far := Nat.add_right_cancel same
    exact unread moved

theorem leaving_adopt_left (inside : id < left.size) :
    (left.adopt right).leaving id = left.leaving id := by
  rw [leaving_adopt, if_pos inside]

theorem leaving_adopt_right :
    (left.adopt right).leaving (id + left.size) = (right.leaving id).map (·.shift left.size) := by
  have outside : ¬id + left.size < left.size := by omega
  rw [leaving_adopt, if_neg outside, Nat.add_sub_cancel]

/-! ## The edges of the accept state -/

theorem leaving_accept_concat (one : left.WellFormed) (two : right.WellFormed) :
    (left.concat right).leaving (left.concat right).accept =
      (right.leaving right.accept).map (·.shift left.size) := by
  have inside := one.accept_lt
  have apart : left.accept ≠ right.accept + left.size := by omega
  rw [accept_concat, leaving_concat one two, if_neg apart, List.append_nil, leaving_adopt_right]

theorem leaving_accept_union (one : left.WellFormed) (two : right.WellFormed) :
    (left.union right).leaving (left.union right).accept = [] := by
  have exit := one.accept_lt
  have final := two.accept_lt
  have apart : left.accept ≠ left.size + right.size + 1 := by omega
  have other : right.accept + left.size ≠ left.size + right.size + 1 := by omega
  rw [union_eq, accept_linkAll, accept_enclose, leaving_enclosed (by simp; omega),
    leaving_eq_nil (Nat.le_succ _)]
  simp [apart, other]

theorem leaving_accept_repeated (formed : body.WellFormed) (how : Quantifier) :
    (repeated how body).leaving (repeated how body).accept =
      if how = .plus then [⟨none, body.size⟩] else [] := by
  have inside := formed.accept_lt
  have apart : body.accept ≠ body.size + 1 := by omega
  rw [repeated_eq, accept_linkAll, accept_enclose,
    leaving_enclosed (source_lt_of_mem_links inside), leaving_eq_nil (Nat.le_succ _)]
  cases how <;> simp [links, apart]

/-! ## Every building step -/

theorem linkable_empty : empty.Linkable where
  sparse := by
    intro id
    match id with
    | 0 => exact Loose.nil.sparse
    | id + 1 => exact (loose_of_le (Nat.le_add_left 1 id)).sparse
  entered := fun edge => absurd edge not_hasEdge_empty
  entry := fun _ _ => not_hasEdge_empty
  exit := .nil

theorem linkable_literal {c : Char} : (literal c).Linkable where
  sparse := by
    intro id
    match id with
    | 0 => exact .labelled c 1
    | 1 => exact Loose.nil.sparse
    | id + 2 => exact (loose_of_le (Nat.le_add_left 2 id)).sparse
  entered := by
    intro source target d edge
    obtain ⟨rfl, _, rfl⟩ := hasEdge_literal.mp edge
    exact ⟨rfl, fun near mark other => (hasEdge_literal.mp other).1⟩
  entry := by
    intro source d edge
    cases (hasEdge_literal.mp edge).2.2
  exit := .nil

theorem Linkable.concat (one : left.Linkable) (two : right.Linkable) (first : left.WellFormed)
    (second : right.WellFormed) : (left.concat right).Linkable := by
  have inside := first.accept_lt
  have shaped : (left.concat right).Shaped := by
    apply (one.toShaped.adopt two.toShaped first).linked
      [(left.accept, right.start + left.size)]
    · intro id
      rw [leaving_concat first second]
      by_cases same : left.accept = id <;> simp [same]
    · rw [List.forall_mem_singleton, leaving_adopt_left inside]
      exact one.exit
    · intro id
      exact Nat.le_succ_of_le List.countP_le_length
    · rw [List.forall_mem_singleton]
      exact unread_adopt_right first two.entry
  refine { shaped with entry := ?_, exit := ?_ }
  · intro source c edge
    rw [start_concat, hasEdge_concat inside] at edge
    obtain old | ⟨_, far, _, _, same⟩ | ⟨_, silent, _⟩ := edge
    · exact one.entry old
    · have bound := first.start_lt
      omega
    · cases silent
  · rw [leaving_accept_concat first second]
    exact two.exit.shift left.size

theorem Shaped.enclosed (shaped : body.Shaped) (formed : body.WellFormed)
    (inside : ∀ pair ∈ pairs, pair.1 < body.size + 2)
    (sources : ∀ pair ∈ pairs, Loose (body.leaving pair.1))
    (few : ∀ id, pairs.countP (·.1 = id) ≤ 2)
    (targets : ∀ pair ∈ pairs, body.Unread pair.2)
    (exit : Loose ((body.enclose.linkAll pairs).leaving (body.enclose.linkAll pairs).accept)) :
    (body.enclose.linkAll pairs).Linkable := by
  have linked : (body.enclose.linkAll pairs).Shaped :=
    shaped.linked pairs (fun id => leaving_enclosed inside) sources few targets
  refine { linked with entry := ?_, exit := exit }
  intro source c edge
  rw [start_linkAll, start_enclose, hasEdge_linkAll, hasEdge_enclose] at edge
  obtain old | ⟨silent, _⟩ := edge
  · exact formed.unread_of_le (Nat.le_refl _) old
  · cases silent

theorem Linkable.union (one : left.Linkable) (two : right.Linkable) (first : left.WellFormed)
    (second : right.WellFormed) : (left.union right).Linkable := by
  have ends := first.accept_lt
  have final := second.accept_lt
  have formed := first.adopt second
  rw [union_eq]
  apply (one.toShaped.adopt two.toShaped first).enclosed formed
  · simp
    omega
  · have fresh : Loose ((left.adopt right).leaving (left.adopt right).size) :=
      loose_of_le (Nat.le_refl _)
    simp only [List.forall_mem_cons, leaving_adopt_left ends, leaving_adopt_right]
    exact ⟨fresh, fresh, one.exit, two.exit.shift left.size, List.forall_mem_nil _⟩
  · intro id
    simp only [List.countP_cons, List.countP_nil, decide_eq_true_eq, size_adopt]
    split_ifs <;> omega
  · have last : (left.adopt right).Unread ((left.adopt right).size + 1) :=
      formed.unread_of_le (Nat.le_succ _)
    simp only [List.forall_mem_cons]
    exact ⟨unread_adopt_left one.entry first.start_lt, unread_adopt_right first two.entry, last, last,
      List.forall_mem_nil _⟩
  · rw [← union_eq, leaving_accept_union first second]
    exact .nil

theorem Linkable.repeated (linkable : body.Linkable) (formed : body.WellFormed) (how : Quantifier) :
    (Nfa.repeated how body).Linkable := by
  have ends := formed.accept_lt
  rw [repeated_eq]
  apply linkable.toShaped.enclosed formed (source_lt_of_mem_links ends)
  · have fresh : Loose (body.leaving body.size) := loose_of_le (Nat.le_refl _)
    have last : Loose (body.leaving (body.size + 1)) := loose_of_le (Nat.le_succ _)
    cases how <;> simp [links, fresh, last, linkable.exit]
  · intro id
    cases how <;> simp only [links, List.countP_cons, List.countP_nil, decide_eq_true_eq] <;>
      split_ifs <;> omega
  · have fresh : body.Unread body.size := formed.unread_of_le (Nat.le_refl _)
    have last : body.Unread (body.size + 1) := formed.unread_of_le (Nat.le_succ _)
    cases how <;> simp [links, fresh, last, linkable.entry]
  · rw [← repeated_eq, leaving_accept_repeated formed]
    split
    · exact .single _
    · exact .nil

theorem Assembled.linkable (assembled : Assembled automaton) : automaton.Linkable := by
  induction assembled with
  | empty => exact linkable_empty
  | literal c => exact linkable_literal
  | @joined left right how first second one two =>
    cases how with
    | concat => exact one.concat two first.wellFormed second.wellFormed
    | union => exact one.union two first.wellFormed second.wellFormed
  | repeated how body ih => exact ih.repeated body.wellFormed how

end Nfa

/-! ## What the last factor tells of the accept state -/

/-- The last of the factors is repeated at least once. -/
def Expr.EndsRepeating (e : Expr) : Prop := ∃ body, e.factors.getLast? = some (.repeated .plus body)

theorem Expr.endsRepeating_concat {left right : Expr} :
    (joined .concat left right).EndsRepeating ↔ right.EndsRepeating := by
  rw [EndsRepeating, EndsRepeating, factors, List.getLast?_append_of_ne_nil _ right.factors_ne_nil]

theorem Expr.leaving_accept_iff (e : Expr) :
    e.toNfa.leaving e.toNfa.accept ≠ [] ↔ e.EndsRepeating := by
  induction e with
  | literal c => simp [EndsRepeating, factors, toNfa, Nfa.leaving, Nfa.literal, Nfa.state?]
  | joined how left right _ ih =>
    cases how with
    | concat =>
      rw [endsRepeating_concat, ← ih, toNfa, Nfa.joined,
        Nfa.leaving_accept_concat left.wellFormed_toNfa right.wellFormed_toNfa, ne_eq,
        List.map_eq_nil_iff]
    | union =>
      rw [toNfa, Nfa.joined, Nfa.leaving_accept_union left.wellFormed_toNfa right.wellFormed_toNfa]
      simp [EndsRepeating, factors]
  | repeated how body _ =>
    rw [toNfa, Nfa.leaving_accept_repeated body.wellFormed_toNfa]
    cases how <;> simp [EndsRepeating, factors]

variable {pattern text : String} {automaton : Nfa}

theorem leaving_accept_of_compile (known : compile pattern = .ok automaton) :
    automaton.leaving automaton.accept ≠ [] ↔
      ∃ e, Derives .union pattern.toList e ∧ e.EndsRepeating := by
  constructor
  · intro leaves
    rcases compile_eq_ok_cases known with ⟨_, _, rfl⟩ | ⟨e, derives, rfl⟩
    · exact absurd rfl leaves
    · exact ⟨e, derives, e.leaving_accept_iff.mp leaves⟩
  · rintro ⟨e, derives, ends⟩
    cases known.symm.trans derives.compile
    exact e.leaving_accept_iff.mpr ends

theorem leaving_accept_of_compilePostfix (known : compilePostfix text = .ok automaton) :
    automaton.leaving automaton.accept ≠ [] ↔
      ∃ e : Expr, text.toList.map Token.ofChar = e.postorder ∧ e.EndsRepeating := by
  constructor
  · intro leaves
    rcases compilePostfix_eq_ok_iff.mp known with ⟨_, rfl⟩ | ⟨e, listed, rfl⟩
    · exact absurd rfl leaves
    · exact ⟨e, listed, e.leaving_accept_iff.mp leaves⟩
  · rintro ⟨e, listed, ends⟩
    cases known.symm.trans (compilePostfix_postorder listed)
    exact e.leaving_accept_iff.mpr ends

/-- A state of an automaton that compiling returns has one edge with a label or at most three
without. The edge with a label leads to the next state, and nothing else does. One silent edge may
leave the accept state, and it does just if the last factor of the expression is repeated at least
once. -/
theorem compiled_edges_are_sparse (automaton : Nfa) (compiled : Compiled automaton) :
    (∀ id, Nfa.Sparse (automaton.leaving id)) ∧
      (∀ source target c, automaton.HasEdge source (some c) target →
        target = source + 1 ∧ automaton.leaving source = [⟨some c, target⟩] ∧
          ∀ near label, automaton.HasEdge near label target → near = source) ∧
      (automaton.leaving automaton.accept = [] ∨
        ∃ target, automaton.leaving automaton.accept = [⟨none, target⟩]) ∧
      (∀ pattern, compile pattern = .ok automaton →
        (automaton.leaving automaton.accept ≠ [] ↔
          ∃ e, Derives .union pattern.toList e ∧ e.EndsRepeating)) ∧
      ∀ text, compilePostfix text = .ok automaton →
        (automaton.leaving automaton.accept ≠ [] ↔
          ∃ e : Expr, text.toList.map Token.ofChar = e.postorder ∧ e.EndsRepeating) := by
  have linkable := (Nfa.Assembled.of_compiled compiled).linkable
  refine ⟨linkable.sparse, fun source target c edge => ?_, linkable.exit.eq_nil_or_single,
    fun pattern => leaving_accept_of_compile, fun text => leaving_accept_of_compilePostfix⟩
  obtain ⟨next, only⟩ := linkable.entered edge
  exact ⟨next, (linkable.sparse source).eq_singleton (Nfa.hasEdge_iff_mem_leaving.mp edge) rfl, only⟩

/-- The second quantifier draws two edges from the state where the first left one. -/
theorem compiled_edges_are_sparse_loop :
    ∃ automaton, compile "a+*b+" = .ok automaton ∧ (automaton.leaving 3).length = 3 ∧
      Nfa.Sparse (automaton.leaving 3) ∧ automaton.leaving automaton.accept ≠ [] := by
  have a : Derives .repetition ['a'] (.literal 'a') := .atom (.literal (by decide))
  have b : Derives .repetition ['b'] (.literal 'b') := .atom (.literal (by decide))
  have derives : Derives .union "a+*b+".toList _ :=
    .concat (.implied (.repetition (.quantified .star (.quantified .plus a))) (.quantified .plus b))
  obtain ⟨sparse, _, _, pattern, _⟩ :=
    compiled_edges_are_sparse _ (.inl ⟨"a+*b+", derives.compile⟩)
  exact ⟨_, derives.compile, by decide +kernel, sparse 3,
    (pattern _ derives.compile).mpr ⟨_, derives, _, rfl⟩⟩

end PatternAutomata
