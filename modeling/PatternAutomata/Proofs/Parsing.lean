import PatternAutomata.Proofs.Balance

/-! Fitting neighbours and nested brackets make a pattern of the grammar.

The pattern is read from the left. Around each group that is still open stands
a text that waits for an operand, and so does the text read inside all of them,
unless it ends with an operand already.
-/

set_option autoImplicit false

namespace PatternAutomata

open Token

/-- Nothing, or alternatives that wait for one more. -/
def Lead (text : List Char) : Prop :=
  text = [] ∨ ∃ first e, Derives .union first e ∧ text = first ++ ['|']

/-- Nothing, or factors that may be followed by one more. -/
def Link (text : List Char) : Prop :=
  text = [] ∨ ∃ first e, Derives .concat first e ∧ (text = first ∨ text = first ++ [concatMarker])

def Pending (text : List Char) : Prop := ∃ lead link, text = lead ++ link ∧ Lead lead ∧ Link link

def Operand (text : List Char) : Prop :=
  ∃ front last e, text = front ++ last ∧ Pending front ∧ Derives .repetition last e

theorem pending_nil : Pending [] := ⟨[], [], rfl, .inl rfl, .inl rfl⟩

theorem Pending.operand {front last : List Char} {e : Expr} (pending : Pending front)
    (derives : Derives .repetition last e) : Operand (front ++ last) :=
  ⟨front, last, e, rfl, pending, derives⟩

theorem Link.factor {link last : List Char} {e : Expr} (linked : Link link)
    (derives : Derives .repetition last e) : ∃ e, Derives .concat (link ++ last) e := by
  obtain rfl | ⟨first, left, before, rfl | rfl⟩ := linked
  · exact ⟨e, .repetition derives⟩
  · exact ⟨_, .implied before derives⟩
  · rw [List.append_assoc, List.singleton_append]
    exact ⟨_, .written before derives⟩

namespace Operand

variable {text : List Char}

theorem factors (operand : Operand text) :
    ∃ lead factors e, text = lead ++ factors ∧ Lead lead ∧ Derives .concat factors e := by
  obtain ⟨_, last, _, rfl, ⟨lead, link, rfl, leads, linked⟩, derives⟩ := operand
  obtain ⟨e, factors⟩ := linked.factor derives
  exact ⟨lead, link ++ last, e, List.append_assoc .., leads, factors⟩

theorem derives (operand : Operand text) : ∃ e, Derives .union text e := by
  obtain ⟨_, factors, e, rfl, leads, derives⟩ := operand.factors
  obtain rfl | ⟨first, left, before, rfl⟩ := leads
  · exact ⟨e, .concat derives⟩
  · rw [List.append_assoc, List.singleton_append]
    exact ⟨_, .union before derives⟩

theorem quantified (operand : Operand text) (how : Quantifier) :
    Operand (text ++ [(Token.quantifier how).toChar]) := by
  obtain ⟨front, last, e, rfl, pending, derives⟩ := operand
  rw [List.append_assoc]
  exact pending.operand (.quantified how derives)

theorem pending (operand : Operand text) : Pending text := by
  obtain ⟨lead, factors, e, rfl, leads, derives⟩ := operand.factors
  exact ⟨lead, factors, rfl, leads, .inr ⟨factors, e, derives, .inl rfl⟩⟩

theorem connected (operand : Operand text) (how : Connective) :
    Pending (text ++ [(Token.connective how).toChar]) := by
  cases how with
  | concat =>
    obtain ⟨lead, factors, e, rfl, leads, derives⟩ := operand.factors
    rw [List.append_assoc]
    exact ⟨lead, _, rfl, leads, .inr ⟨factors, e, derives, .inr rfl⟩⟩
  | union =>
    obtain ⟨e, derives⟩ := operand.derives
    exact ⟨_, [], (List.append_nil _).symm, .inr ⟨text, e, derives, rfl⟩, .inl rfl⟩

end Operand

/-- The text read so far, with `before` as its last token, or with an opening bracket before it. -/
structure Read (before : Token) (text : List Char) : Prop where
  pending : Pending text
  operand : before.awaitsOperand = false → Operand text

theorem Operand.read {text : List Char} {before : Token} (operand : Operand text) :
    Read before text :=
  ⟨operand.pending, fun _ => operand⟩

theorem Pending.read {text : List Char} {before : Token} (pending : Pending text)
    (awaits : before.awaitsOperand = true) : Read before text :=
  ⟨pending, fun complete => by simp [awaits] at complete⟩

def enclosed (outer : List (List Char)) (text : List Char) : List Char :=
  outer.foldl (fun inner front => front ++ '(' :: inner) text

theorem exists_derives_enclosed {before : Token} {outer : List (List Char)}
    {text rest : List Char} (around : ∀ front ∈ outer, Pending front) (read : Read before text)
    (fits : List.IsChain Fits (before :: rest.map ofChar ++ [.closeGroup]))
    (nested : nests outer.length (rest.map ofChar) = true) :
    ∃ e, Derives .union (enclosed outer (text ++ rest)) e := by
  induction rest generalizing before outer text with
  | nil =>
    obtain rfl : outer = [] := List.length_eq_zero_iff.mp (of_decide_eq_true nested)
    have complete : before.awaitsOperand = false := by
      simpa [Fits, bindsLeft] using fits
    rw [List.append_nil]
    exact (read.operand complete).derives
  | cons c rest ih =>
    obtain ⟨fit, fits⟩ := List.isChain_cons_cons.mp fits
    have written : c = (ofChar c).toChar := (toChar_ofChar c).symm
    have finds : (ofChar c).bindsLeft = true → Operand text := fun binds =>
      read.operand (fit.resolve_right (by simp [binds]))
    rw [List.map_cons] at nested
    rw [← List.singleton_append, ← List.append_assoc]
    cases token : ofChar c with
    | literal d =>
      obtain ⟨rfl, free⟩ := ofChar_eq_literal_iff.mp token
      rw [token] at fits nested
      exact ih around (read.pending.operand (.atom (.literal free))).read fits nested
    | quantifier how =>
      rw [token] at fits nested finds written
      rw [written]
      exact ih around ((finds rfl).quantified how).read fits nested
    | connective how =>
      rw [token] at fits nested finds written
      rw [written]
      exact ih around (((finds rfl).connected how).read rfl) fits nested
    -- the text read so far is put aside until the group is closed
    | openGroup =>
      rw [token] at fits nested written
      have inside := ih (List.forall_mem_cons.mpr ⟨read.pending, around⟩)
        (pending_nil.read rfl) fits nested
      rw [written, List.append_assoc]
      exact inside
    | closeGroup =>
      rw [token] at fits nested finds written
      cases outer with
      | nil => cases nested
      | cons front outer =>
        -- the group is an operand of the text that was put aside for it
        obtain ⟨pending, around⟩ := List.forall_mem_cons.mp around
        obtain ⟨e, derives⟩ := (finds rfl).derives
        have outside := ih around (pending.operand (.atom (.group derives))).read fits nested
        have regrouped : front ++ '(' :: (text ++ [c] ++ rest) =
            front ++ ('(' :: text ++ [')']) ++ rest := by
          simp [written, toChar]
        change ∃ e, Derives .union (enclosed outer (front ++ '(' :: (text ++ [c] ++ rest))) e
        rw [regrouped]
        exact outside

/-- A text of fitting neighbours and nested brackets is a pattern of the grammar. -/
theorem exists_derives {text : List Char}
    (fits : List.IsChain Fits (.openGroup :: text.map ofChar ++ [.closeGroup]))
    (nested : nests 0 (text.map ofChar) = true) : ∃ e, Derives .union text e :=
  exists_derives_enclosed (List.forall_mem_nil _) (pending_nil.read rfl) fits nested

end PatternAutomata
