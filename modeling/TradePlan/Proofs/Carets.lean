import TradePlan.Proofs.NameFaults

/-!
# The caret of an error report

An error in the text of a formula counts the bytes in front of the offence, and the report puts as many
spaces in front of its caret.  Whatever is read before the first offence takes one byte a character,
and the blanks of a normalised text are spaces, so the caret stands under the offence:

    Cuts (normalizeChars cs) (before ++ after) → (∀ lexeme ∈ before, lexeme.isSound = true) →
      Text.byteLength (before.flatMap chars) = (before.flatMap chars).length
                                                                          (byteLength_of_isSound)
    linesOf (errorReport formula fault) =
      "error:" :: normalize formula :: (replicate position ' ' ++ ['^']) :: linesOf fault.message
                                                                            (linesOf_errorReport)

An error that has a place comes from reading the text; the checks after that name no place.
-/

namespace TradePlan

/-! ## Bytes -/

theorem Text.byteLength_of_forall {cs : List Char} (h : ∀ c ∈ cs, c.utf8Size = 1) :
    Text.byteLength cs = cs.length := by
  induction cs with
  | nil => rfl
  | cons c cs ih =>
    obtain ⟨hc, hcs⟩ := List.forall_mem_cons.mp h
    rw [Text.byteLength, hc, ih hcs, List.length_cons, Nat.add_comm]

/-- A character of a formula takes one byte, unless it is a blank other than the space. -/
theorem Token.utf8Size_of_isLegal {c : Char} (h : isLegal c = true)
    (hblank : Text.isBlank c = true → c = ' ') : c.utf8Size = 1 := by
  rw [isLegal, Bool.or_eq_true, Bool.or_eq_true, List.contains_iff_mem] at h
  rcases h with (h | h) | h
  · rw [hblank h]
    decide
  · rw [Char.isAlphanum, Bool.or_eq_true] at h
    rcases h with h | h
    · have hnat := @toNat_of_isNameStart c (by simp [isNameStart, h])
      exact Text.utf8Size_of_lt (by omega)
    · have hle : c.toNat ≤ 0x39 := (Char.isDigit_iff_toNat.mp h).2
      exact Text.utf8Size_of_lt (by omega)
  · simp only [List.mem_cons, List.not_mem_nil, or_false] at h
    rcases h with rfl | rfl | rfl | rfl | rfl | rfl | rfl | rfl | rfl | rfl | rfl
    all_goals exact Text.utf8Size_of_lt (by decide)

/-! ## Places of errors -/

section

variable {policy : AliasPolicy} {bindings : Bindings} {tokens : List Token} {formula : String}
  {fault : FormulaError}

theorem IsNameFault.position_eq_none (h : IsNameFault policy bindings tokens fault) :
    fault.position = none := by
  cases h <;> rfl

theorem IsLateFault.position_eq_none (h : IsLateFault formula tokens fault) :
    fault.position = none := by
  cases h <;> rfl

/-- An error of a text that is read has no place. -/
theorem position_eq_none_of_tokens (hread : Token.readAll formula = .ok tokens)
    (h : Formula.evaluate policy bindings formula = .error fault) : fault.position = none := by
  cases hnames : checkNames policy bindings tokens with
  | ok _ => exact (isLateFault_of_evaluate hread hnames h).position_eq_none
  | error other =>
    rw [evaluate_of_checkNames_error hread hnames] at h
    obtain rfl := Except.error.inj h
    obtain ⟨_, _, _, hfault, -⟩ := checkNames_eq_error_iff.mp hnames
    exact hfault.position_eq_none

/-- **An error that has a place is the error of reading the normalised text.** -/
theorem readAll_of_position {position : Nat} (hplace : fault.position = some position)
    (h : Formula.evaluate policy bindings formula = .error fault) :
    Token.readAll (Formula.normalize formula) = .error fault := by
  cases hread : Token.readAll (Formula.normalize formula) with
  | ok tokens =>
    rw [position_eq_none_of_tokens (Token.readAll_normalize.mp hread) h] at hplace
    cases hplace
  | error other =>
    rw [Formula.evaluate, Formula.tokens, hread] at h
    split at h
    · obtain rfl := Except.error.inj h
      cases hplace
    · exact congrArg Except.error (Except.error.inj h)

end

/-! ## The text in front of an offence -/

namespace Lexeme

theorem Cuts.flatMap_chars {cs : List Char} {lexemes : List Lexeme} (h : Cuts cs lexemes) :
    cs = lexemes.flatMap chars := by
  induction h with
  | nil => rfl
  | cons _ _ ih => rw [List.flatMap_cons, ← ih]

theorem IsOffence.position_eq {position : Nat} {lexeme : Lexeme} {fault : FormulaError}
    (h : lexeme.IsOffence position fault) : fault.position = some position := by
  cases h <;> rfl

/-- In a normalised text, what stands in front of the first offence takes one byte a character. -/
theorem byteLength_of_isSound {cs : List Char} {before after : List Lexeme}
    (h : Cuts (Formula.normalizeChars cs) (before ++ after))
    (hbefore : ∀ lexeme ∈ before, lexeme.isSound = true) :
    Text.byteLength (before.flatMap chars) = (before.flatMap chars).length := by
  obtain ⟨back, hcs, hfront, -⟩ := h.split
  have hlegal := ((forall_isSound_iff hfront).mp hbefore).1
  refine Text.byteLength_of_forall fun c hc => Token.utf8Size_of_isLegal (hlegal c hc) fun hblank => ?_
  have hmem : c ∈ Formula.normalizeChars cs := by
    rw [hcs]
    exact List.mem_append_left _ hc
  exact Formula.eq_space_of_mem_normalizeChars hmem hblank

end Lexeme

/-! ## The lines of a report -/

def linesOf (text : String) : List (List Char) := Text.piecesAt (· == '\n') text.toList

theorem linesOf_append {front : String} (h : '\n' ∉ front.toList) (back : String) :
    linesOf (front ++ "\n" ++ back) = front.toList :: linesOf back := by
  have hnone : ∀ c ∈ front.toList, (c == '\n') = false := by
    intro c hc
    rw [beq_eq_false_iff_ne]
    rintro rfl
    exact h hc
  rw [linesOf, linesOf, String.toList_append, String.toList_append, List.append_assoc]
  exact Text.piecesAt_append hnone rfl

theorem Formula.newline_notMem_normalize (formula : String) : '\n' ∉ (normalize formula).toList := by
  rw [normalize, String.toList_ofList]
  intro h
  exact absurd (eq_space_of_mem_normalizeChars h (by decide)) (by decide)

/-- The report of an error that has a place. -/
theorem linesOf_errorReport (formula : String) {fault : FormulaError} {position : Nat}
    (h : fault.position = some position) :
    linesOf (Formula.errorReport formula fault) =
      "error:".toList :: (Formula.normalize formula).toList ::
        (List.replicate position ' ' ++ ['^']) :: linesOf fault.message := by
  have hline : (String.ofList (List.replicate position ' ') ++ "^").toList =
      List.replicate position ' ' ++ ['^'] := by simp
  have hcaret : '\n' ∉ (String.ofList (List.replicate position ' ') ++ "^").toList := by
    simp [hline]
  have hreport : Formula.errorReport formula fault =
      "error:" ++ "\n" ++ (Formula.normalize formula ++ "\n" ++
        (String.ofList (List.replicate position ' ') ++ "^" ++ "\n" ++ fault.message)) := by
    rw [Formula.errorReport, FormulaError.context, h]
    simp [String.append_assoc]
  rw [hreport, linesOf_append (by decide), linesOf_append (Formula.newline_notMem_normalize formula),
    linesOf_append hcaret, hline]

/-! ## Top theorem -/

open Lexeme in
/-- **The caret stands under the offence.**  An error that has a place is about the first lexeme of the
normalised text that is no part of a formula.  Its place is the number of bytes in front of it, and the
report shows the normalised text on a line and under it a caret behind as many spaces as there are
characters in front of the lexeme. -/
theorem linesOf_errorReport_of_evaluate {policy : AliasPolicy} {bindings : Bindings}
    {formula : String} {fault : FormulaError} {position : Nat}
    (h : Formula.evaluate policy bindings formula = .error fault)
    (hplace : fault.position = some position) :
    ∃ before offence after,
      Cuts (Formula.normalize formula).toList (before ++ offence :: after) ∧
      (∀ lexeme ∈ before, lexeme.isSound = true) ∧ offence.IsOffence position fault ∧
      let front := before.flatMap chars
      (Formula.normalize formula).toList = front ++ offence.chars ++ after.flatMap chars ∧
      position = Text.byteLength front ∧
      linesOf (Formula.errorReport formula fault) =
        "error:".toList :: (Formula.normalize formula).toList ::
          (List.replicate front.length ' ' ++ ['^']) :: linesOf fault.message := by
  have hread := readAll_of_position hplace h
  obtain ⟨lexemes, hcuts⟩ := exists_cuts (Formula.normalize formula).toList
  obtain ⟨before, offence, after, rfl, hbefore, hoffence⟩ := (readFrom_eq_error_iff hcuts).mp hread
  rw [Nat.zero_add] at hoffence
  obtain rfl : Text.byteLength (before.flatMap chars) = position :=
    Option.some.inj (hoffence.position_eq.symm.trans hplace)
  refine ⟨before, offence, after, hcuts, hbefore, hoffence, ?_, rfl, ?_⟩
  · rw [hcuts.flatMap_chars, List.flatMap_append, List.flatMap_cons, List.append_assoc]
  · rw [linesOf_errorReport formula hplace]
    rw [Formula.normalize, String.toList_ofList] at hcuts
    rw [byteLength_of_isSound hcuts hbefore]

open Lexeme in
/-- Blanks of two and three bytes stand in front of the fraction, and a letter of two bytes behind it;
the caret stands under the fraction. -/
theorem linesOf_errorReport_of_evaluate_fraction :
    let formula := "\u3000low\u00a0+ \t½ * é"
    let fault := FormulaError.illegalCharacter '½' 6
    Formula.evaluate .collapse Formula.sampleBindings formula = .error fault ∧
    fault.position = some 6 ∧
    (∃ before offence after,
      Cuts (Formula.normalize formula).toList (before ++ offence :: after) ∧
      (∀ lexeme ∈ before, lexeme.isSound = true) ∧ offence.IsOffence 6 fault ∧
      6 = Text.byteLength (before.flatMap chars) ∧
      linesOf (Formula.errorReport formula fault) =
        "error:".toList :: (Formula.normalize formula).toList ::
          (List.replicate (before.flatMap chars).length ' ' ++ ['^']) :: linesOf fault.message) ∧
    linesOf (Formula.errorReport formula fault) = ["error:".toList, "low + ½ * é".toList,
      "      ^".toList, "illegal character '½' at position 6".toList] := by
  intro formula fault
  have hevaluate : Formula.evaluate .collapse Formula.sampleBindings formula = .error fault := by
    decide +kernel
  obtain ⟨before, offence, after, hcuts, hbefore, hoffence, -, hbytes, hlines⟩ :=
    linesOf_errorReport_of_evaluate hevaluate rfl
  exact ⟨hevaluate, rfl, ⟨before, offence, after, hcuts, hbefore, hoffence, hbytes, hlines⟩,
    by decide +kernel⟩

end TradePlan
