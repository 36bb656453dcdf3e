import PatternAutomata.Factors
import PatternAutomata.Proofs.Layout
import PatternAutomata.Proofs.Size

/-! Reading an expression off its automaton.

The edges that leave the start state tell which operator was applied last, and
the number of the start state where the first factor ends. So automata agree
just if the expressions do, up to how concatenations are grouped.
-/

set_option autoImplicit false

namespace PatternAutomata

namespace Nfa

variable {left right first second body other : Nfa} {id size start accept entry : Nat}
  {pairs : List (Nat × Nat)} {how kind : Quantifier} {c : Char}

/-! ## Repeated bodies -/

def links (how : Quantifier) (size start accept : Nat) : List (Nat × Nat) :=
  match how with
  | .star => [(size, size + 1), (size, start), (accept, size + 1), (accept, start)]
  | .plus => [(size, start), (accept, size + 1), (size + 1, size)]
  | .optional => [(size, start), (accept, size + 1), (size, size + 1)]

theorem repeated_eq (how : Quantifier) :
    repeated how body = body.enclose.linkAll (links how body.size body.start body.accept) := by
  cases how <;> rfl

theorem source_lt_of_mem_links (inside : accept < size) :
    ∀ pair ∈ links how size start accept, pair.1 < size + 2 := by
  cases how <;> simp [links] <;> omega

theorem leaving_size_enclosed (inside : ∀ pair ∈ pairs, pair.1 < body.size + 2) :
    (body.enclose.linkAll pairs).leaving body.size =
      (pairs.filter (·.1 = body.size)).map fun pair => ⟨none, pair.2⟩ := by
  rw [leaving_enclosed inside, leaving_eq_nil (Nat.le_refl _), List.nil_append]

/-- Where the new start state leads tells the quantifier and where its body starts. -/
theorem links_inj (before : start < size) (within : entry < size) (exit : accept < size)
    (same : ((links how size start accept).filter (·.1 = size)).map (fun pair => Edge.mk none pair.2) =
      ((links kind size entry accept).filter (·.1 = size)).map fun pair => Edge.mk none pair.2) :
    how = kind ∧ start = entry := by
  have apart : accept ≠ size := exit.ne
  cases how <;> cases kind <;> simp [links, apart] at same ⊢ <;> omega

theorem repeated_inj (one : body.WellFormed) (two : other.WellFormed)
    (last : body.accept + 1 = body.size) (final : other.accept + 1 = other.size)
    (same : repeated how body = repeated kind other) : how = kind ∧ body = other := by
  have size : other.size = body.size := by
    have sizes : (repeated how body).size = (repeated kind other).size := congrArg Nfa.size same
    rw [size_repeated, size_repeated] at sizes
    exact (Nat.add_right_cancel sizes).symm
  have accept : other.accept = body.accept := by omega
  rw [repeated_eq, repeated_eq, size, accept] at same
  have drawn : ∀ pair ∈ links how body.size body.start body.accept, pair.1 < body.size + 2 :=
    source_lt_of_mem_links one.accept_lt
  have redrawn : ∀ pair ∈ links kind body.size other.start body.accept, pair.1 < body.size + 2 :=
    source_lt_of_mem_links one.accept_lt
  have roots : (body.enclose.linkAll (links how body.size body.start body.accept)).leaving body.size =
      (other.enclose.linkAll (links kind body.size other.start body.accept)).leaving other.size := by
    rw [same, size]
  rw [leaving_size_enclosed drawn, leaving_size_enclosed (size ▸ redrawn), size] at roots
  obtain ⟨rfl, start⟩ := links_inj one.start_lt (size ▸ two.start_lt) one.accept_lt roots
  rw [← start] at same
  exact ⟨rfl, enclosed_inj one two start accept.symm drawn same⟩

/-! ## Unions -/

theorem leaving_size_union (one : left.WellFormed) (two : right.WellFormed) :
    (left.union right).leaving (left.size + right.size) =
      [⟨none, left.start⟩, ⟨none, right.start + left.size⟩] := by
  have exit := one.accept_lt
  have other := two.accept_lt
  have apart : left.accept ≠ left.size + right.size := by omega
  have distinct : right.accept + left.size ≠ left.size + right.size := by omega
  rw [← size_adopt, union_eq, leaving_size_enclosed (by simp; omega)]
  simp [apart, distinct]

theorem hasEdge_union_accept (one : left.WellFormed) (two : right.WellFormed) :
    (left.union right).HasEdge id none (left.size + right.size + 1) ↔
      id = left.accept ∨ id = right.accept + left.size := by
  have entry := one.start_lt
  have other := two.start_lt
  have exit := one.accept_lt
  have final := two.accept_lt
  have outside : ¬(left.adopt right).HasEdge id none (left.size + right.size + 1) := by
    intro edge
    have inside := (one.adopt two).target_lt edge
    rw [size_adopt] at inside
    omega
  rw [union_eq, hasEdge_linkAll, hasEdge_enclose, size_enclose, size_adopt]
  simp only [outside, false_or, true_and, and_true, List.mem_cons, List.not_mem_nil, or_false,
    Prod.mk.injEq]
  omega

theorem union_inj (one : left.WellFormed) (two : first.WellFormed) (behind : right.WellFormed)
    (follows : second.WellFormed) (last : left.accept + 1 = left.size)
    (final : first.accept + 1 = first.size) (ending : right.accept + 1 = right.size)
    (closing : second.accept + 1 = second.size) (same : left.union right = first.union second) :
    left = first ∧ right = second := by
  have sizes : (left.union right).size = (first.union second).size := congrArg Nfa.size same
  rw [size_union, size_union] at sizes
  have total : left.size + right.size = first.size + second.size := Nat.add_right_cancel sizes
  -- the left side ends where the first edge to the new accept state comes from
  have exits : (first.union second).HasEdge left.accept none (first.size + second.size + 1) := by
    rw [← same, ← total, hasEdge_union_accept one behind]
    exact .inl rfl
  have nonempty := behind.start_lt
  have accept : left.accept = first.accept := by
    rcases (hasEdge_union_accept two follows).mp exits with here | past
    · exact here
    · omega
  have size : left.size = first.size := by omega
  have roots : (left.union right).leaving (left.size + right.size) =
      (first.union second).leaving (first.size + second.size) := by rw [same, total]
  rw [leaving_size_union one behind, leaving_size_union two follows, size] at roots
  simp only [List.cons.injEq, Edge.mk.injEq, true_and, and_true, Nat.add_right_cancel_iff] at roots
  obtain ⟨start, entry⟩ := roots
  have exit : right.accept = second.accept := by omega
  rw [union_eq, union_eq, size_adopt, size_adopt, ← total, ← start, ← entry, ← accept, ← exit, ← size]
    at same
  have one_lt := one.accept_lt
  have two_lt := behind.accept_lt
  have parts : left.adopt right = first.adopt second :=
    enclosed_inj (one.adopt behind) (two.adopt follows) start accept (by simp; omega) same
  exact adopt_inj one two behind follows size accept entry exit parts

/-! ## Unlike operators -/

theorem literal_ne_repeated (formed : body.WellFormed) : .literal c ≠ repeated how body := by
  intro same
  have sizes : 2 = (repeated how body).size := congrArg Nfa.size same
  have nonempty := formed.start_lt
  rw [size_repeated] at sizes
  omega

theorem literal_ne_union (one : left.WellFormed) : .literal c ≠ left.union right := by
  intro same
  have sizes : 2 = (left.union right).size := congrArg Nfa.size same
  have nonempty := one.start_lt
  rw [size_union] at sizes
  omega

theorem union_ne_repeated (one : left.WellFormed) (two : right.WellFormed) (formed : body.WellFormed) :
    left.union right ≠ repeated how body := by
  intro same
  have sizes : (left.union right).size = (repeated how body).size := congrArg Nfa.size same
  rw [size_union, size_repeated] at sizes
  have total : left.size + right.size = body.size := Nat.add_right_cancel sizes
  have roots : (left.union right).leaving (left.size + right.size) =
      (repeated how body).leaving body.size := by rw [same, total]
  rw [leaving_size_union one two, repeated_eq,
    leaving_size_enclosed (source_lt_of_mem_links formed.accept_lt)] at roots
  have before := one.start_lt
  have behind := two.start_lt
  have apart : body.accept ≠ body.size := formed.accept_lt.ne
  cases how <;> simp [links, apart] at roots
  all_goals omega

end Nfa

namespace Expr

variable {e f : Expr}

/-! ## Factors of expressions -/

inductive Single : Expr → Prop where
  | literal (c : Char) : Single (.literal c)
  | union (left right : Expr) : Single (.joined .union left right)
  | repeated (how : Quantifier) (body : Expr) : Single (.repeated how body)

theorem accept_toNfa (e : Expr) : e.toNfa.accept + 1 = e.toNfa.size := by
  induction e with
  | literal c => rfl
  | joined how left right _ last =>
    cases how with
    | concat =>
      rw [toNfa, Nfa.joined, Nfa.accept_concat, Nfa.size_concat, ← last]
      omega
    | union => simp [toNfa, Nfa.joined, Nfa.union_eq]
  | repeated how body _ => simp [toNfa, Nfa.repeated_eq]

theorem Single.start_toNfa (single : e.Single) : e.toNfa.start + 2 = e.toNfa.size := by
  cases single with
  | literal c => rfl
  | union left right => simp [toNfa, Nfa.joined, Nfa.union_eq]
  | repeated how body => simp [toNfa, Nfa.repeated_eq]

theorem exists_first (e : Expr) :
    e.Single ∨ ∃ first rest : Expr, first.Single ∧
      e.toNfa = first.toNfa.concat rest.toNfa ∧ e.factors = first.factors ++ rest.factors := by
  induction e with
  | literal c => exact .inl (.literal c)
  | repeated how body _ => exact .inl (.repeated how body)
  | joined how left right split _ =>
    cases how with
    | union => exact .inl (.union left right)
    | concat =>
      rcases split with single | ⟨first, rest, single, built, listed⟩
      · exact .inr ⟨left, right, single, rfl, rfl⟩
      · refine .inr ⟨first, .joined .concat rest right, single, ?_, ?_⟩
        · rw [toNfa, Nfa.joined, built]
          exact Nfa.concat_assoc first.wellFormed_toNfa rest.wellFormed_toNfa right.wellFormed_toNfa
        · rw [factors, listed, List.append_assoc]
          rfl

theorem Single.length_factors (single : e.Single) : e.factors.length = 1 := by
  cases single <;> rfl

theorem factors_ne_nil (e : Expr) : e.factors ≠ [] := by
  rcases e.exists_first with single | ⟨first, rest, single, _, listed⟩
  · exact List.ne_nil_of_length_eq_add_one single.length_factors
  · rw [listed]
    exact List.append_ne_nil_of_left_ne_nil (List.ne_nil_of_length_eq_add_one single.length_factors) _

theorem two_le_size (e : Expr) : 2 ≤ e.toNfa.size := by
  rw [size_toNfa, e.operands_postorder]
  omega

/-! ## Equal automata -/

variable {first rest head tail : Expr}

/-- The first factor ends two states behind the start state, and there the others begin. -/
theorem Single.toNfa_ne_concat (single : e.Single) (head : first.Single) :
    e.toNfa ≠ first.toNfa.concat rest.toNfa := by
  intro same
  have sizes : e.toNfa.size = (first.toNfa.concat rest.toNfa).size := congrArg Nfa.size same
  have starts : e.toNfa.start = (first.toNfa.concat rest.toNfa).start := congrArg Nfa.start same
  rw [Nfa.size_concat] at sizes
  rw [Nfa.start_concat] at starts
  have here := single.start_toNfa
  have there := head.start_toNfa
  have more := rest.two_le_size
  omega

theorem Single.factors_ne_append (single : e.Single) (head : first.Single) :
    e.factors ≠ first.factors ++ rest.factors := by
  intro same
  have lengths := congrArg List.length same
  rw [List.length_append, single.length_factors, head.length_factors] at lengths
  have more := List.length_pos_of_ne_nil rest.factors_ne_nil
  omega

theorem union_toNfa_eq_iff {left right first second : Expr}
    (here : left.toNfa = first.toNfa ↔ left.factors = first.factors)
    (there : right.toNfa = second.toNfa ↔ right.factors = second.factors) :
    (joined .union left right).toNfa = (joined .union first second).toNfa ↔
      (joined .union left right).factors = (joined .union first second).factors := by
  simp only [toNfa, Nfa.joined, factors, List.cons.injEq, Factor.union.injEq, and_true]
  constructor
  · intro same
    obtain ⟨one, two⟩ := Nfa.union_inj left.wellFormed_toNfa first.wellFormed_toNfa
      right.wellFormed_toNfa second.wellFormed_toNfa left.accept_toNfa first.accept_toNfa
      right.accept_toNfa second.accept_toNfa same
    exact ⟨here.mp one, there.mp two⟩
  · rintro ⟨one, two⟩
    rw [here.mpr one, there.mpr two]

theorem repeated_toNfa_eq_iff {body other : Expr} {how kind : Quantifier}
    (inside : body.toNfa = other.toNfa ↔ body.factors = other.factors) :
    (repeated how body).toNfa = (repeated kind other).toNfa ↔
      (repeated how body).factors = (repeated kind other).factors := by
  simp only [toNfa, factors, List.cons.injEq, Factor.repeated.injEq, and_true]
  constructor
  · intro same
    obtain ⟨operator, parts⟩ := Nfa.repeated_inj body.wellFormed_toNfa other.wellFormed_toNfa
      body.accept_toNfa other.accept_toNfa same
    exact ⟨operator, inside.mp parts⟩
  · rintro ⟨operator, parts⟩
    rw [operator, inside.mpr parts]

/-- Unlike operators build unlike automata, and like ones are as alike as their parts. -/
theorem Single.toNfa_eq_iff (one : e.Single) (two : f.Single)
    (parts : ∀ part other : Expr, part.toNfa.size < e.toNfa.size →
      (part.toNfa = other.toNfa ↔ part.factors = other.factors)) :
    e.toNfa = f.toNfa ↔ e.factors = f.factors := by
  cases one with
  | literal c =>
    cases two with
    | literal d => simp [toNfa, Nfa.literal, factors]
    | union left right =>
      simp only [toNfa, Nfa.joined]
      exact iff_of_false (Nfa.literal_ne_union left.wellFormed_toNfa) (by simp [factors])
    | repeated how body =>
      simp only [toNfa]
      exact iff_of_false (Nfa.literal_ne_repeated body.wellFormed_toNfa) (by simp [factors])
  | union left right =>
    cases two with
    | literal d =>
      simp only [toNfa, Nfa.joined]
      exact iff_of_false (Nfa.literal_ne_union left.wellFormed_toNfa).symm (by simp [factors])
    | union first second =>
      have size : (joined .union left right).toNfa.size = left.toNfa.size + right.toNfa.size + 2 := by
        rw [toNfa, Nfa.joined, Nfa.size_union]
      exact union_toNfa_eq_iff (parts left first (by omega)) (parts right second (by omega))
    | repeated how body =>
      simp only [toNfa, Nfa.joined]
      exact iff_of_false (Nfa.union_ne_repeated left.wellFormed_toNfa right.wellFormed_toNfa
        body.wellFormed_toNfa) (by simp [factors])
  | repeated how body =>
    cases two with
    | literal d =>
      simp only [toNfa]
      exact iff_of_false (Nfa.literal_ne_repeated body.wellFormed_toNfa).symm (by simp [factors])
    | union left right =>
      simp only [toNfa, Nfa.joined]
      exact iff_of_false (Nfa.union_ne_repeated left.wellFormed_toNfa right.wellFormed_toNfa
        body.wellFormed_toNfa).symm (by simp [factors])
    | repeated kind other =>
      have size : (Expr.repeated how body).toNfa.size = body.toNfa.size + 2 := by
        rw [toNfa, Nfa.size_repeated]
      exact repeated_toNfa_eq_iff (parts body other (by omega))

theorem concat_toNfa_eq_iff (single : first.Single) (other : head.Single)
    (here : first.toNfa = head.toNfa ↔ first.factors = head.factors)
    (there : rest.toNfa = tail.toNfa ↔ rest.factors = tail.factors) :
    first.toNfa.concat rest.toNfa = head.toNfa.concat tail.toNfa ↔
      first.factors ++ rest.factors = head.factors ++ tail.factors := by
  constructor
  · intro same
    have starts : (first.toNfa.concat rest.toNfa).start = (head.toNfa.concat tail.toNfa).start :=
      congrArg Nfa.start same
    rw [Nfa.start_concat, Nfa.start_concat] at starts
    have size : first.toNfa.size = head.toNfa.size := by
      rw [← single.start_toNfa, ← other.start_toNfa, starts]
    have accept : first.toNfa.accept = head.toNfa.accept := by
      have last := first.accept_toNfa
      rw [size, ← head.accept_toNfa] at last
      exact Nat.add_right_cancel last
    obtain ⟨left, right⟩ := Nfa.concat_inj first.wellFormed_toNfa head.wellFormed_toNfa
      rest.wellFormed_toNfa tail.wellFormed_toNfa size accept same
    rw [here.mp left, there.mp right]
  · intro same
    obtain ⟨left, right⟩ := List.append_inj same (single.length_factors.trans other.length_factors.symm)
    rw [here.mpr left, there.mpr right]

theorem toNfa_eq_iff (e f : Expr) : e.toNfa = f.toNfa ↔ e.factors = f.factors := by
  -- on the number of states, since taking off a first factor leaves no part of the expression
  induction size : e.toNfa.size using Nat.strong_induction_on generalizing e f with
  | _ n ih =>
    subst size
    have parts (part other : Expr) (smaller : part.toNfa.size < e.toNfa.size) :
        part.toNfa = other.toNfa ↔ part.factors = other.factors := ih _ smaller part other rfl
    rcases e.exists_first with one | ⟨first, rest, single, built, listed⟩
    · rcases f.exists_first with two | ⟨head, tail, head_single, made, noted⟩
      · exact one.toNfa_eq_iff two parts
      · rw [made, noted]
        exact iff_of_false (one.toNfa_ne_concat head_single) (one.factors_ne_append head_single)
    · rcases f.exists_first with two | ⟨head, tail, head_single, made, noted⟩
      · rw [built, listed]
        exact iff_of_false (two.toNfa_ne_concat single).symm (two.factors_ne_append single).symm
      · have size : e.toNfa.size = first.toNfa.size + rest.toNfa.size := by
          rw [built, Nfa.size_concat]
        have more := first.two_le_size
        have behind := rest.two_le_size
        rw [built, made, listed, noted]
        exact concat_toNfa_eq_iff single head_single (parts first head (by omega))
          (parts rest tail (by omega))

end Expr

open Token

variable {p q : String} {first second : Nfa}

/-- The automaton tells the expression of a pattern, up to how concatenations are grouped, and tells
nothing of the text beyond that. -/
theorem automaton_determines_factors (one : compile p = .ok first) (two : compile q = .ok second) :
    (first = second ↔
      (∀ c ∈ p.toList, c ∈ reserved) ∧ (∀ c ∈ q.toList, c ∈ reserved) ∨
        ∃ e f, Derives .union p.toList e ∧ Derives .union q.toList f ∧ e.factors = f.factors) ∧
      ∀ e f, Derives .union p.toList e → Derives .union q.toList f →
        (first = second ↔ e.factors = f.factors) := by
  have derived (e f : Expr) (left : Derives .union p.toList e) (right : Derives .union q.toList f) :
      first = second ↔ e.factors = f.factors := by
    rw [← Expr.toNfa_eq_iff, Except.ok.inj (one.symm.trans left.compile),
      Except.ok.inj (two.symm.trans right.compile)]
  refine ⟨⟨fun same => ?_, fun alike => ?_⟩, derived⟩
  · rcases compile_eq_ok_cases one with ⟨depth, brackets, rfl⟩ | ⟨e, left, rfl⟩
    · rcases compile_eq_ok_cases two with ⟨other, nothing, _⟩ | ⟨f, _, rfl⟩
      · exact .inl ⟨mem_reserved_of_nested brackets, mem_reserved_of_nested nothing⟩
      · -- an automaton of an expression has more than the one state of the empty one
        have large := f.two_le_size
        rw [← same] at large
        exact absurd large (by decide)
    · rcases compile_eq_ok_cases two with ⟨_, _, rfl⟩ | ⟨f, right, rfl⟩
      · have large := e.two_le_size
        rw [same] at large
        exact absurd large (by decide)
      · exact .inr ⟨e, f, left, right, (derived e f left right).mp same⟩
  · rcases alike with ⟨bare, empty⟩ | ⟨e, f, left, right, factors⟩
    · obtain ⟨_, _, rfl⟩ := eq_nested_of_reserved one bare
      obtain ⟨_, _, rfl⟩ := eq_nested_of_reserved two empty
      rfl
    · exact (derived e f left right).mpr factors

theorem automaton_determines_factors_regrouped :
    compile "ab*" ≠ compile "(ab)*" ∧ compile "a(bc)" = compile "ab·c" := by
  have a : Derives .repetition ['a'] (.literal 'a') := .atom (.literal (by decide))
  have b : Derives .repetition ['b'] (.literal 'b') := .atom (.literal (by decide))
  have c : Derives .repetition ['c'] (.literal 'c') := .atom (.literal (by decide))
  have inner : Derives .union "ab*".toList _ :=
    .concat (.implied (.repetition a) (.quantified .star b))
  have outer : Derives .union "(ab)*".toList _ :=
    .concat (.repetition (.quantified .star (.atom (.group (.concat (.implied (.repetition a) b))))))
  have right : Derives .union "a(bc)".toList _ :=
    .concat (.implied (.repetition a) (.atom (.group (.concat (.implied (.repetition b) c)))))
  have left : Derives .union "ab·c".toList _ :=
    .concat (.written (.implied (.repetition a) b) c)
  constructor
  · rw [inner.compile, outer.compile]
    intro same
    have factors := ((automaton_determines_factors inner.compile outer.compile).2 _ _ inner outer).mp
      (Except.ok.inj same)
    simp [Expr.factors] at factors
  · rw [right.compile, left.compile]
    exact congrArg _
      (((automaton_determines_factors right.compile left.compile).2 _ _ right left).mpr rfl)

end PatternAutomata
