import TradePlan.Proofs.LetterCase

/-!
# Spellings of a formula

A formula may be spelt with other blanks and in another letter case.  Two texts with the same lexemes,
blanks apart, are read alike: as the same tokens, or with the same offence, which stands behind the
same characters, blanks apart.  So a check of the text and a check of the normalised text agree:

    Cuts formula.toList lexemes → Cuts other.toList others →
      others.filter (!·.isBlank) = lexemes.filter (!·.isBlank) →
        ReadAlike formula other                                                 (readAlike_of_cuts)
    ReadAlike formula (Formula.normalize formula)                            (readAlike_normalize)
-/

namespace TradePlan

/-! ## Reading two texts alike -/

/-- The same offence, at two bytes. -/
inductive SameOffence (position other : Nat) : FormulaError → FormulaError → Prop where
  | character (c : Char) :
      SameOffence position other (.illegalCharacter c position) (.illegalCharacter c other)
  | number (text : String) :
      SameOffence position other (.badNumber text position) (.badNumber text other)

/-- Two texts are read as the same tokens, or fail with the same offence, at bytes with the same
characters in front of them, blanks apart. -/
inductive ReadAlike (formula other : String) : Prop where
  | read {tokens : List Token} : Token.readAll formula = .ok tokens →
      Token.readAll other = .ok tokens → ReadAlike formula other
  | failed {fault otherFault : FormulaError} {front back otherFront otherBack : List Char} :
      Token.readAll formula = .error fault → Token.readAll other = .error otherFault →
      formula.toList = front ++ back → other.toList = otherFront ++ otherBack →
      SameOffence (Text.byteLength front) (Text.byteLength otherFront) fault otherFault →
      front.filter (!Text.isBlank ·) = otherFront.filter (!Text.isBlank ·) → ReadAlike formula other

namespace Lexeme

open Token

/-- What is wrong with a lexeme is wrong with it wherever it stands. -/
theorem IsOffence.exists_sameOffence {lexeme : Lexeme} {position : Nat} {fault : FormulaError}
    (h : lexeme.IsOffence position fault) (place : Nat) :
    ∃ other, lexeme.IsOffence place other ∧ SameOffence position place fault other := by
  cases h with
  | number hnumeral => exact ⟨_, .number hnumeral, .number _⟩
  | sign hlegal => exact ⟨_, .sign hlegal, .character _⟩

/-- Only the character of a blank is blank. -/
theorem IsFormed.isBlank_eq {lexeme : Lexeme} (h : lexeme.IsFormed) :
    ∀ c ∈ lexeme.chars, Text.isBlank c = lexeme.isBlank := by
  cases h with
  | blank hblank => exact List.forall_mem_singleton.mpr hblank
  | number hall =>
    exact fun c hc => isBlank_of_isNumberChar (isNumberChar_iff.mpr (hall c hc))
  | name hc hcs =>
    exact List.forall_mem_cons.mpr ⟨(class_of_isNameStart (isNameStart_iff.mpr hc)).1,
      fun other hother => isBlank_of_isNameChar (isNameChar_iff.mpr (hcs other hother))⟩
  | sign hblank => exact List.forall_mem_singleton.mpr hblank

/-- The characters of a text, blanks apart, are those of its lexemes. -/
theorem Cuts.filter_isBlank {cs : List Char} {lexemes : List Lexeme} (h : Cuts cs lexemes) :
    cs.filter (!Text.isBlank ·) = (lexemes.filter (!·.isBlank)).flatMap chars := by
  induction h with
  | nil => rfl
  | @cons lexeme rest lexemes hlongest hrest ih =>
    have hchars := hlongest.isFormed.isBlank_eq
    rw [List.filter_append, ih]
    cases hblank : lexeme.isBlank with
    | true =>
      rw [List.filter_cons_of_neg (by simp [hblank]), List.filter_eq_nil_iff.mpr fun c hc => by
        simp [hchars c hc, hblank], List.nil_append]
    | false =>
      rw [List.filter_cons_of_pos (by simp [hblank]), List.flatMap_cons,
        List.filter_eq_self.mpr fun c hc => by simp [hchars c hc, hblank]]

/-- Lexemes that are the same, blanks apart, have the same first offence. -/
theorem exists_split_of_filter_eq {before after others : List Lexeme} {offence : Lexeme}
    (h : others.filter (!·.isBlank) = (before ++ offence :: after).filter (!·.isBlank))
    (hbefore : ∀ lexeme ∈ before, lexeme.isSound = true) (hoffence : offence.isSound = false) :
    ∃ front back, others = front ++ offence :: back ∧
      front.filter (!·.isBlank) = before.filter (!·.isBlank) ∧
      ∀ lexeme ∈ front, lexeme.isSound = true := by
  have hblank : offence.isBlank = false := isBlank_of_not_isSound hoffence
  rw [List.filter_append, List.filter_cons_of_pos (by simp [hblank])] at h
  obtain ⟨front, rest, rfl, hfront, hrest⟩ := List.filter_eq_append_iff.mp h
  obtain ⟨blanks, back, rfl, hblanks, -, -⟩ := List.filter_eq_cons_iff.mp hrest
  have hfilter : (front ++ blanks).filter (!·.isBlank) = before.filter (!·.isBlank) := by
    rw [List.filter_append, hfront, List.filter_eq_nil_iff.mpr hblanks, List.append_nil]
  refine ⟨front ++ blanks, back, (List.append_assoc ..).symm, hfilter, fun lexeme hlexeme => ?_⟩
  cases hkind : lexeme.isBlank with
  | true => exact isSound_of_isBlank hkind
  | false =>
    have hmem : lexeme ∈ (front ++ blanks).filter (!·.isBlank) :=
      List.mem_filter.mpr ⟨hlexeme, by simp [hkind]⟩
    rw [hfilter] at hmem
    exact hbefore lexeme (List.mem_of_mem_filter hmem)

/-- **Texts with the same lexemes, blanks apart, are read alike.** -/
theorem readAlike_of_cuts {formula other : String} {lexemes others : List Lexeme}
    (h : Cuts formula.toList lexemes) (hother : Cuts other.toList others)
    (hsame : others.filter (!·.isBlank) = lexemes.filter (!·.isBlank)) :
    ReadAlike formula other := by
  cases hread : Token.readAll formula with
  | ok tokens =>
    refine .read hread ((readFrom_eq_ok_iff hother).mpr ?_)
    rw [hsame]
    exact (readFrom_eq_ok_iff h).mp hread
  | error fault =>
    obtain ⟨before, offence, after, rfl, hbefore, hoffence⟩ := (readFrom_eq_error_iff h).mp hread
    have hunsound := (isSound_eq_false_iff _).mpr ⟨fault, hoffence⟩
    obtain ⟨otherBefore, otherAfter, rfl, hfilter, hsound⟩ :=
      exists_split_of_filter_eq hsame hbefore hunsound
    obtain ⟨otherFault, hotherOffence, hfault⟩ :=
      hoffence.exists_sameOffence (0 + Text.byteLength (otherBefore.flatMap chars))
    have hotherRead : Token.readAll other = .error otherFault :=
      (readFrom_eq_error_iff hother).mpr ⟨_, _, _, rfl, hsound, hotherOffence⟩
    obtain ⟨back, hback, hfront, -⟩ := h.split
    obtain ⟨otherBack, hotherBack, hotherFront, -⟩ := hother.split
    rw [Nat.zero_add, Nat.zero_add] at hfault
    refine .failed hread hotherRead hback hotherBack hfault ?_
    rw [hfront.filter_isBlank, hotherFront.filter_isBlank, hfilter]

end Lexeme

/-- **The normalised text is read as the text is.** -/
theorem readAlike_normalize (formula : String) : ReadAlike formula (Formula.normalize formula) := by
  obtain ⟨lexemes, hcuts⟩ := Lexeme.exists_cuts formula.toList
  obtain ⟨others, hothers, hsame⟩ := hcuts.exists_normalizeChars
  refine Lexeme.readAlike_of_cuts hcuts ?_ hsame
  rwa [Formula.normalize, String.toList_ofList]

/-- The no-break space in front of the number takes two bytes, and the space one. -/
example : Token.readAll "1\u00a0.5.2" = .error (.badNumber ".5.2" 3) ∧
    Token.readAll (Formula.normalize "1\u00a0.5.2") = .error (.badNumber ".5.2" 2) := by
  decide +kernel

/-! ## Blank texts -/

/-- Nothing is left of a text without the blanks around it if it is blank. -/
theorem Text.trim_eq_empty_iff {text : String} : trim text = "" ↔ isBlankText text = true := by
  rw [trim, String.ofList_eq_empty_iff, isBlankText, List.all_eq_true]
  constructor
  · intro h c hc
    have hleft : ∀ other ∈ trimLeft text.toList, isBlank other = true :=
      List.rdropWhile_eq_nil_iff.mp h
    rw [← @List.takeWhile_append_dropWhile _ isBlank text.toList] at hc
    rcases List.mem_append.mp hc with hc | hc
    · exact List.all_eq_true.mp List.all_takeWhile c hc
    · exact hleft c hc
  · intro h
    rw [trimChars, trimLeft, List.dropWhile_eq_nil_iff.mpr h]
    rfl

/-- A text has no tokens if it is blank. -/
theorem Token.readAll_eq_nil_iff {formula : String} :
    readAll formula = .ok [] ↔ Text.isBlankText formula = true := by
  constructor
  · intro h
    obtain ⟨lexemes, hcuts⟩ := Lexeme.exists_cuts formula.toList
    have hnil := List.forall₂_nil_right_iff.mp ((Lexeme.readFrom_eq_ok_iff hcuts).mp h)
    have hfilter := hcuts.filter_isBlank
    rw [hnil, List.flatMap_nil, List.filter_eq_nil_iff] at hfilter
    rw [Text.isBlankText, List.all_eq_true]
    simpa using hfilter
  · intro h
    rw [← readAll_normalize, Formula.normalize_eq_empty_iff.mpr h]
    exact readFrom.eq_1 0

/-! ## Top theorem -/

namespace Formula

/-- **The spelling of a formula does not count.**  A formula and its normalised text are read alike;
what is normalised stays as it is; nothing is left of a formula, trimmed or normalised, if and only if
it has no tokens; and in another letter case, with the names of the values in another letter case too,
it has the same value or the same error. -/
theorem readAlike_of_spelling (formula : String) :
    ReadAlike formula (normalize formula) ∧
      normalize (normalize formula) = normalize formula ∧
      (Text.trim formula = "" ↔ normalize formula = "") ∧
      (normalize formula = "" ↔ Token.readAll formula = .ok []) ∧
      ∀ (other : String) (policy : AliasPolicy) (values others : List (String × Float)),
        Text.foldCase other = Text.foldCase formula →
        List.Forall₂ Bindings.SameEntry values others →
        evaluate policy (.ofList others) other = evaluate policy (.ofList values) formula := by
  refine ⟨readAlike_normalize formula, normalize_normalize formula, ?_, ?_, ?_⟩
  · rw [Text.trim_eq_empty_iff, normalize_eq_empty_iff]
  · rw [Token.readAll_eq_nil_iff, normalize_eq_empty_iff]
  · intro other policy values others hcase hvalues
    rw [Bindings.ofList_congr hvalues, evaluate_eq_of_foldCase_eq hcase]

/-- A formula among wide blanks, in small letters and in capitals, with a value each time. -/
theorem readAlike_of_spelling_capitals :
    let formula := "\u3000entry -\t2 * Atr "
    let other := "\u3000ENTRY -\t2 * ATR "
    let values : List (String × Float) := [("entry", 100), ("atr", 2)]
    let others : List (String × Float) := [("Entry", 100), ("ATR", 2)]
    Text.foldCase other = Text.foldCase formula ∧
      List.Forall₂ Bindings.SameEntry values others ∧
      evaluate .collapse (.ofList others) other = evaluate .collapse (.ofList values) formula ∧
      evaluate .collapse (.ofList values) formula = .ok 96 := by
  intro formula other values others
  have hcase : Text.foldCase other = Text.foldCase formula := by decide +kernel
  have hvalues : List.Forall₂ Bindings.SameEntry values others :=
    .cons ⟨by decide +kernel, rfl⟩ (.cons ⟨by decide +kernel, rfl⟩ .nil)
  obtain ⟨-, -, -, -, hsame⟩ := readAlike_of_spelling formula
  exact ⟨hcase, hvalues, hsame other .collapse values others hcase hvalues, by decide +kernel⟩

end Formula

end TradePlan
