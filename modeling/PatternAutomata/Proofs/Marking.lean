import PatternAutomata.Proofs.Compilation
import PatternAutomata.Proofs.Positions
import PatternAutomata.WrittenOut

/-! Patterns compiled with their concatenations written out.

Marking puts in what the characters imply, and then nothing more is implied. A
written-out pattern has the tokens of the pattern at other positions, so it
compiles to the same automaton or fails with the same fault.
-/

set_option autoImplicit false

namespace PatternAutomata

open Token

variable {pattern : String} {text : List Char} {read : List Lexeme}

/-! ## What is put in -/

theorem awaitsOperand_ofChar (c : Char) :
    (ofChar c).awaitsOperand = decide (c ∈ ['(', '|', concatMarker]) := by
  unfold ofChar
  repeat' split
  all_goals simp_all [awaitsOperand, concatMarker]

theorem bindsLeft_ofChar (c : Char) :
    (ofChar c).bindsLeft = decide (c ∈ [')', '*', '+', '?', '|', concatMarker]) := by
  unfold ofChar
  repeat' split
  all_goals simp_all [bindsLeft, concatMarker]

theorem meets_ofChar (left right : Char) :
    (ofChar left).meets (ofChar right) = decide (Implied left right) := by
  rw [meets, awaitsOperand_ofChar, bindsLeft_ofChar]
  simp [Implied]

theorem impliedAt_length (front back : List Char) (left right : Char) :
    impliedAt (front ++ left :: right :: back) (front.length + 1) = decide (Implied left right) := by
  simp [impliedAt]

def Lexeme.ofPlaced (entry : Char × Nat) : Lexeme := ⟨entry.2, ofChar entry.1⟩

theorem lexemes_eq_map (pattern : String) :
    lexemes pattern = pattern.toList.zipIdx.map .ofPlaced := rfl

theorem gapAt_map (front back : List Char) (left right : Char) :
    (gapAt (front ++ left :: right :: back) (front.length + 1)).map .ofPlaced =
      if (ofChar left).meets (ofChar right) then
        [(⟨front.length + 1, .connective .concat⟩ : Lexeme)] else [] := by
  have marker : ofChar concatMarker = .connective .concat := by decide
  rw [gapAt, impliedAt_length, meets_ofChar]
  split <;> simp [Lexeme.ofPlaced, marker]

theorem marked_cons_cons (first second : Lexeme) (rest : List Lexeme) :
    marked (first :: second :: rest) =
      first :: (if first.token.meets second.token then [⟨second.position, .connective .concat⟩] else []) ++
        marked (second :: rest) := by
  rw [marked]
  split <;> rfl

/-- From any place of a text on, marking its tokens puts in what is written out there, but for a
marker in front of the first of them. -/
theorem marked_suffix (front : List Char) (c : Char) (rest : List Char) :
    (((c :: rest).zipIdx front.length).flatMap fun (c', place) =>
        gapAt (front ++ c :: rest) place ++ [(c', place)]).map Lexeme.ofPlaced =
      (gapAt (front ++ c :: rest) front.length).map .ofPlaced ++
        marked (((c :: rest).zipIdx front.length).map .ofPlaced) := by
  induction rest generalizing front c with
  | nil => simp [marked]
  | cons d rest ih =>
    have next := ih (front ++ [c]) d
    rw [List.length_append, List.length_singleton, List.append_assoc, List.singleton_append,
      gapAt_map] at next
    rw [List.zipIdx_cons, List.flatMap_cons, List.map_append, next, List.map_append]
    simp only [List.map_cons, List.zipIdx_cons, marked_cons_cons]
    simp only [Lexeme.ofPlaced, List.map_nil, List.cons_append, List.nil_append, List.append_assoc]
    rfl

theorem marked_lexemes (pattern : String) :
    marked (lexemes pattern) = (writtenOut pattern.toList).map .ofPlaced := by
  rw [lexemes_eq_map]
  cases pattern.toList with
  | nil => rfl
  | cons c rest =>
    have start : gapAt ([] ++ c :: rest) 0 = [] := rfl
    have whole := marked_suffix [] c rest
    rw [List.length_nil, start] at whole
    exact whole.symm

/-! ## Nothing is left to put in -/

/-- No concatenation is implied between neighbours any more. -/
def Apart (left right : Token) : Prop := left.meets right = false

theorem isChain_following (before : Token) (tokens : List Token) :
    List.IsChain Apart (before :: before.following tokens) := by
  induction tokens generalizing before with
  | nil => exact List.isChain_singleton _
  | cons next rest ih =>
    rw [following, gap]
    split
    · rename_i joins
      have starts : Apart before (.connective .concat) := by simp [Apart, meets, bindsLeft]
      have stops : Apart (.connective .concat) next := by simp [Apart, meets, awaitsOperand]
      exact .cons_cons starts (.cons_cons stops (ih next))
    · rename_i apart
      exact .cons_cons (Bool.eq_false_iff.mpr apart) (ih next)

theorem isChain_explicit (tokens : List Token) : List.IsChain Apart (explicit tokens) := by
  rw [explicit_eq_following]
  exact (isChain_following .openGroup tokens).tail

theorem marked_eq_self (apart : List.IsChain Apart (read.map (·.token))) : marked read = read := by
  fun_induction marked read with
  | case1 => rfl
  | case2 => rfl
  | case3 first second rest joins ih =>
    obtain ⟨disjoint, _⟩ := List.isChain_cons_cons.mp apart
    exact absurd joins (Bool.eq_false_iff.mp disjoint)
  | case4 first second rest _ ih =>
    rw [ih (List.isChain_cons_cons.mp apart).2]

theorem marked_lexemes_markConcatenation (pattern : String) :
    marked (lexemes (markConcatenation pattern)) = lexemes (markConcatenation pattern) := by
  apply marked_eq_self
  rw [markConcatenation, tokens_spelling plain_of_mem_marked, tokens_marked_lexemes]
  exact isChain_explicit _

theorem toList_markConcatenation (pattern : String) :
    (markConcatenation pattern).toList = (writtenOut pattern.toList).map (·.1) := by
  rw [markConcatenation, marked_lexemes, spelling, String.toList_ofList, List.map_map]
  apply List.map_congr_left
  intro entry _
  exact toChar_ofChar entry.1

theorem markConcatenation_markConcatenation (pattern : String) :
    markConcatenation (markConcatenation pattern) = markConcatenation pattern := by
  rw [markConcatenation, marked_lexemes_markConcatenation, spelling_lexemes]

/-! ## Compiling what is written out -/

variable {fault : Fault} {place origin : Nat} {c : Char}

def originOf (text : List Char) (place : Nat) : Nat :=
  ((writtenOut text)[place]?.map (·.2)).getD place

theorem originOf_eq (known : (writtenOut text)[place]? = some (c, origin)) :
    originOf text place = origin := by
  rw [originOf, known]
  rfl

theorem lexemes_markConcatenation (pattern : String) :
    (lexemes (markConcatenation pattern)).map (·.moved (originOf pattern.toList)) =
      marked (lexemes pattern) := by
  rw [marked_lexemes, lexemes_eq_map, toList_markConcatenation]
  apply List.ext_getElem?
  intro place
  simp only [List.getElem?_map, List.getElem?_zipIdx, Option.map_map]
  cases known : (writtenOut pattern.toList)[place]? with
  | none => rfl
  | some entry =>
    have here : originOf pattern.toList (0 + place) = entry.2 := by
      rw [Nat.zero_add]
      exact originOf_eq known
    exact congrArg (fun position => some (⟨position, ofChar entry.1⟩ : Lexeme)) here

theorem compile_eq_mapError (pattern : String) :
    compile pattern =
      (compile (markConcatenation pattern)).mapError (·.moved (originOf pattern.toList)) := by
  apply compile_moved
  rw [marked_lexemes_markConcatenation, lexemes_markConcatenation]

theorem nodup_writtenOut (pattern : String) : (writtenOut pattern.toList).Nodup := by
  have marks : (marked (lexemes pattern)).Nodup :=
    (pairwise_marked (pairwise_lexemes pattern)).imp Lexeme.Before.ne
  rw [marked_lexemes] at marks
  exact marks.of_map

theorem exists_writtenOut (failed : compile (markConcatenation pattern) = .error ⟨fault, some place⟩) :
    ∃ c origin, (writtenOut pattern.toList)[place]? = some (c, origin) ∧
      fault.blamed? = some (.ofChar c) ∧ compile pattern = .error ⟨fault, some origin⟩ := by
  obtain ⟨lexeme, member, position, token⟩ := (blames_of_compile failed).resolve_right nofun
  rw [marked_lexemes_markConcatenation] at member
  obtain ⟨spot, found⟩ := List.mem_iff_getElem?.mp member
  obtain rfl : place = spot := (Option.some.inj position).trans (position_of_lexemes found)
  rw [lexemes_eq_map, toList_markConcatenation] at found
  simp only [List.getElem?_map, List.getElem?_zipIdx, Option.map_map, Option.map_eq_some_iff] at found
  obtain ⟨⟨c, origin⟩, known, rfl⟩ := found
  refine ⟨c, origin, known, token, ?_⟩
  rw [compile_eq_mapError, failed, ← originOf_eq known]
  rfl

/-- Failures of the pattern are those of the written-out pattern, at places that the places of
those stand for. -/
theorem compile_eq_error_iff {position : Option Nat} :
    compile pattern = .error ⟨fault, position⟩ ↔
      ∃ old, compile (markConcatenation pattern) = .error ⟨fault, old⟩ ∧
        old.map (originOf pattern.toList) = position := by
  rw [compile_eq_mapError, mapError_eq_error_iff]
  constructor
  · intro ⟨diagnostic, failed, moved⟩
    obtain ⟨old, rfl, same⟩ := Diagnostic.moved_eq_iff.mp moved
    exact ⟨old, failed, same⟩
  · intro ⟨old, failed, same⟩
    exact ⟨⟨fault, old⟩, failed, Diagnostic.moved_eq_iff.mpr ⟨old, rfl, same⟩⟩

theorem exists_place_of_compile (failed : compile pattern = .error ⟨fault, some origin⟩) :
    ∃ c place, (writtenOut pattern.toList)[place]? = some (c, origin) ∧
      fault.blamed? = some (.ofChar c) ∧
        compile (markConcatenation pattern) = .error ⟨fault, some place⟩ := by
  obtain ⟨old, again, moved⟩ := compile_eq_error_iff.mp failed
  obtain ⟨place, rfl, _⟩ := Option.map_eq_some_iff.mp moved
  obtain ⟨c, found, known, blamed, same⟩ := exists_writtenOut again
  cases failed.symm.trans same
  exact ⟨c, place, known, blamed, again⟩

theorem compile_markConcatenation_error_iff
    (known : (writtenOut pattern.toList)[place]? = some (c, origin)) :
    compile (markConcatenation pattern) = .error ⟨fault, some place⟩ ↔
      compile pattern = .error ⟨fault, some origin⟩ ∧ fault.blamed? = some (.ofChar c) := by
  constructor
  · intro failed
    obtain ⟨d, found, here, blamed, same⟩ := exists_writtenOut failed
    cases known.symm.trans here
    exact ⟨same, blamed⟩
  · intro ⟨failed, blamed⟩
    obtain ⟨d, spot, there, named, again⟩ := exists_place_of_compile failed
    -- the character to blame and its origin leave one place only
    obtain rfl : c = d := ofChar_inj.mp (Option.some.inj (blamed.symm.trans named))
    obtain ⟨inside, _⟩ := List.getElem?_eq_some_iff.mp known
    obtain rfl : place = spot :=
      (List.getElem?_inj inside (nodup_writtenOut pattern)).mp (known.trans there.symm)
    exact again

/-- Writing the concatenations out does to a pattern what its characters say, and doing it again
does nothing. The automaton is the same. A place of the written-out pattern is blamed just if its
character is the one that the fault blames, and the pattern is blamed at the place that this
character stands for. -/
theorem writing_out_changes_positions_only (pattern : String) :
    markConcatenation (markConcatenation pattern) = markConcatenation pattern ∧
      (markConcatenation pattern).toList = (writtenOut pattern.toList).map (·.1) ∧
      (∀ automaton, compile (markConcatenation pattern) = .ok automaton ↔
        compile pattern = .ok automaton) ∧
      (∀ fault place c origin, (writtenOut pattern.toList)[place]? = some (c, origin) →
        (compile (markConcatenation pattern) = .error ⟨fault, some place⟩ ↔
          compile pattern = .error ⟨fault, some origin⟩ ∧ fault.blamed? = some (.ofChar c))) ∧
      (∀ fault place, compile (markConcatenation pattern) = .error ⟨fault, some place⟩ →
        ∃ c origin, (writtenOut pattern.toList)[place]? = some (c, origin)) ∧
      (∀ fault origin, compile pattern = .error ⟨fault, some origin⟩ →
        ∃ c place, (writtenOut pattern.toList)[place]? = some (c, origin) ∧
          compile (markConcatenation pattern) = .error ⟨fault, some place⟩) ∧
      ∀ fault, compile (markConcatenation pattern) = .error { fault } ↔
        compile pattern = .error { fault } := by
  refine ⟨markConcatenation_markConcatenation pattern, toList_markConcatenation pattern, ?_, ?_, ?_, ?_,
    ?_⟩
  · intro automaton
    rw [compile_eq_mapError pattern, mapError_eq_ok_iff]
  · intro fault place c origin known
    exact compile_markConcatenation_error_iff known
  · intro fault place failed
    obtain ⟨c, origin, known, _⟩ := exists_writtenOut failed
    exact ⟨c, origin, known⟩
  · intro fault origin failed
    obtain ⟨c, place, known, _, again⟩ := exists_place_of_compile failed
    exact ⟨c, place, known, again⟩
  · intro fault
    rw [@compile_eq_error_iff pattern]
    simp

theorem writing_out_changes_positions_only_unclosed :
    markConcatenation "a(b" = "a·(b" ∧
      compile "a·(b" = .error ⟨.unclosedGroup, some 2⟩ ∧
      compile "a(b" = .error ⟨.unclosedGroup, some 1⟩ := by
  have text : markConcatenation "a(b" = "a·(b" := rfl
  have failed : compile "a·(b" = .error ⟨.unclosedGroup, some 2⟩ := rfl
  have places := (writing_out_changes_positions_only "a(b").2.2.2.1
  exact ⟨text, failed, ((places .unclosedGroup 2 '(' 1 rfl).mp failed).1⟩

/-- A marker put in stands for the place of the character behind it, and is not to blame for what is
wrong with that. -/
theorem marker_is_not_to_blame :
    markConcatenation "a(b" = "a·(b" ∧ (writtenOut "a(b".toList)[1]? = some ('·', 1) ∧
      ¬(compile (markConcatenation "a(b") = .error ⟨.unclosedGroup, some 1⟩ ↔
        compile "a(b" = .error ⟨.unclosedGroup, some 1⟩) := by
  have later : compile (markConcatenation "a(b") = .error ⟨.unclosedGroup, some 2⟩ := rfl
  have failed : compile "a(b" = .error ⟨.unclosedGroup, some 1⟩ := rfl
  refine ⟨rfl, rfl, fun same => ?_⟩
  cases later.symm.trans (same.mpr failed)

end PatternAutomata
