import TradePlan.Proofs.Spacing

/-!
# Letter case

Only ASCII letters have a small letter of their own, every class of characters that the reader asks
about holds both or neither, and names are kept in small letters.  So the letter case of a formula is
never seen, and the same goes for the names that values are given to:

    readFrom position (cs.map Char.toLower) = readFrom position cs          (readFrom_map_toLower)
    normalize (foldCase formula) = foldCase (normalize formula)               (normalize_foldCase)
    foldCase other = foldCase formula →
      evaluate policy bindings other = evaluate policy bindings formula
                                                                 (evaluate_eq_of_foldCase_eq)
-/

namespace TradePlan

/-! ## Characters -/

namespace Token

/-- Only a letter changes when it is made small, and it stays a letter. -/
theorem toLower_cases (c : Char) :
    c.toLower = c ∨ isNameStart c = true ∧ isNameStart c.toLower = true := by
  by_cases h : c.isUpper = true
  · have hstart : isNameStart c = true := by simp [isNameStart, Char.isAlpha, h]
    exact .inr ⟨hstart, isNameStart_of_isSmallStart (isSmallStart_toLower hstart)⟩
  · exact .inl (Char.toLower_eq_of_not_isUpper h)

/-- What is the same for all letters is the same for a letter and its small letter. -/
theorem eq_toLower_of_const {α : Type} {f : Char → α} {x : α}
    (h : ∀ c, isNameStart c = true → f c = x) (c : Char) : f c.toLower = f c := by
  rcases toLower_cases c with hc | ⟨hc, hlower⟩
  · rw [hc]
  · rw [h _ hc, h _ hlower]

theorem isBlank_toLower : ∀ c : Char, Text.isBlank c.toLower = Text.isBlank c :=
  eq_toLower_of_const fun _ h => (class_of_isNameStart h).1

theorem isNumberChar_toLower : ∀ c : Char, isNumberChar c.toLower = isNumberChar c :=
  eq_toLower_of_const fun _ h => (class_of_isNameStart h).2

theorem isNameStart_toLower : ∀ c : Char, isNameStart c.toLower = isNameStart c :=
  eq_toLower_of_const fun _ h => h

theorem isNameChar_toLower : ∀ c : Char, isNameChar c.toLower = isNameChar c :=
  eq_toLower_of_const fun _ h => isNameChar_of_isNameStart h

theorem utf8Size_toLower : ∀ c : Char, c.toLower.utf8Size = c.utf8Size :=
  eq_toLower_of_const fun c h => by
    have hnat := toNat_of_isNameStart h
    exact Text.utf8Size_of_lt (by omega)

theorem toLower_of_not_isNameStart {c : Char} (h : isNameStart c = false) : c.toLower = c := by
  rcases toLower_cases c with hc | ⟨hc, -⟩
  · exact hc
  · rw [h] at hc
    cases hc

/-! ## Reading -/

theorem byteLength_map_toLower (cs : List Char) :
    Text.byteLength (cs.map Char.toLower) = Text.byteLength cs := by
  induction cs with
  | nil => rfl
  | cons c cs ih => rw [List.map_cons, Text.byteLength, utf8Size_toLower, ih, Text.byteLength]

theorem foldCase_map_toLower (cs : List Char) :
    Text.foldCase (String.ofList (cs.map Char.toLower)) = Text.foldCase (String.ofList cs) := by
  have hfold : Text.foldCase (String.ofList cs) = String.ofList (cs.map Char.toLower) := by
    rw [Text.foldCase, String.toList_ofList]
  rw [← hfold, Text.foldCase_foldCase]

section

variable {p : Char → Bool} (h : ∀ c : Char, p c.toLower = p c) (cs : List Char)
include h

theorem takeWhile_map_toLower :
    (cs.map Char.toLower).takeWhile p = (cs.takeWhile p).map Char.toLower := by
  rw [List.takeWhile_map, show p ∘ Char.toLower = p from funext h]

theorem dropWhile_map_toLower :
    (cs.map Char.toLower).dropWhile p = (cs.dropWhile p).map Char.toLower := by
  rw [List.dropWhile_map, show p ∘ Char.toLower = p from funext h]

end

theorem toLower_of_isNumberChar {c : Char} (h : isNumberChar c = true) : c.toLower = c := by
  apply toLower_of_not_isNameStart
  rw [Bool.eq_false_iff]
  intro hstart
  rw [(class_of_isNameStart hstart).2] at h
  cases h

/-- The digits and points in front of a text have no letter case. -/
theorem takeWhile_isNumberChar_map_toLower (cs : List Char) :
    (cs.map Char.toLower).takeWhile isNumberChar = cs.takeWhile isNumberChar := by
  rw [takeWhile_map_toLower isNumberChar_toLower]
  refine (List.map_congr_left fun c hc => toLower_of_isNumberChar ?_).trans (List.map_id _)
  exact List.all_eq_true.mp List.all_takeWhile c hc

/-- **A text is read as its small letters are.** -/
theorem readFrom_map_toLower (position : Nat) (cs : List Char) :
    readFrom position (cs.map Char.toLower) = readFrom position cs := by
  fun_induction readFrom position cs with
  | case1 position => rw [List.map_nil, readFrom]
  | case2 position c cs hblank ih =>
    rw [List.map_cons, readFrom, isBlank_toLower, if_pos hblank, utf8Size_toLower, ih]
  | case3 position c cs hblank hnumber lexeme fault hread =>
    rw [List.map_cons, toLower_of_isNumberChar hnumber, readFrom, if_neg hblank, if_pos hnumber]
    simp only [takeWhile_isNumberChar_map_toLower]
    rw [hread]
  | case4 position c cs hblank hnumber lexeme value hread =>
    rename_i ih
    -- a number holds no letter, so only the rest of the text changes
    rw [List.map_cons, toLower_of_isNumberChar hnumber, readFrom, if_neg hblank, if_pos hnumber]
    simp only [takeWhile_isNumberChar_map_toLower, dropWhile_map_toLower isNumberChar_toLower]
    rw [hread]
    simp only [lexeme] at ih ⊢
    rw [ih]
  | case5 position c cs hblank hnumber hstart lexeme =>
    rename_i ih
    -- a name ends where its small letters end, and is kept in small letters
    rw [List.map_cons, readFrom, isBlank_toLower, if_neg hblank, isNumberChar_toLower, if_neg hnumber,
      isNameStart_toLower, if_pos hstart]
    simp only [takeWhile_map_toLower isNameChar_toLower, dropWhile_map_toLower isNameChar_toLower]
    rw [← List.map_cons, byteLength_map_toLower, foldCase_map_toLower]
    simp only [lexeme] at ih ⊢
    rw [ih]
  | case6 position c cs hblank hnumber hstart token htoken ih =>
    rw [List.map_cons, toLower_of_not_isNameStart (by simpa using hstart), readFrom, if_neg hblank,
      if_neg hnumber, if_neg hstart, htoken, ih]
  | case7 position c cs hblank hnumber hstart htoken =>
    rw [List.map_cons, toLower_of_not_isNameStart (by simpa using hstart), readFrom, if_neg hblank,
      if_neg hnumber, if_neg hstart, htoken]

end Token

/-! ## Words -/

namespace Text

theorem piecesAt_map {stop : Char → Bool} {f : Char → Char} (h : ∀ c, stop (f c) = stop c)
    (cs : List Char) : piecesAt stop (cs.map f) = (piecesAt stop cs).map (List.map f) := by
  induction cs with
  | nil => rfl
  | cons c cs ih =>
    rw [List.map_cons, piecesAt, piecesAt, h, ih]
    split
    · rfl
    · cases piecesAt stop cs <;> rfl

theorem words_map_toLower (cs : List Char) :
    words (cs.map Char.toLower) = (words cs).map (List.map Char.toLower) := by
  rw [words, words, piecesAt_map Token.isBlank_toLower, List.filter_map]
  congr 2
  funext piece
  simp

theorem map_intercalate (f : Char → Char) (sep : List Char) (parts : List (List Char)) :
    (sep.intercalate parts).map f = (sep.map f).intercalate (parts.map (List.map f)) := by
  induction parts with
  | nil => rfl
  | cons part parts ih =>
    cases parts with
    | nil => simp
    | cons other others =>
      rw [List.intercalate_cons_cons, List.map_append, List.map_append, ih]
      simp only [List.map_cons, List.intercalate_cons_cons]

end Text

/-! ## Formulas -/

namespace Formula

theorem normalizeChars_map_toLower (cs : List Char) :
    normalizeChars (cs.map Char.toLower) = (normalizeChars cs).map Char.toLower := by
  rw [normalizeChars, normalizeChars, Text.map_intercalate, Text.words_map_toLower]
  rfl

theorem normalize_foldCase (formula : String) :
    normalize (Text.foldCase formula) = Text.foldCase (normalize formula) := by
  rw [normalize, normalize, Text.foldCase, Text.foldCase, String.toList_ofList, String.toList_ofList,
    normalizeChars_map_toLower]

/-- A formula has the tokens of its small letters, and where it has none, the same is wrong with it. -/
theorem tokens_foldCase (formula : String) : tokens (Text.foldCase formula) = tokens formula := by
  have hread : Token.readAll (Text.foldCase (normalize formula)) = Token.readAll (normalize formula) := by
    rw [Token.readAll, Text.foldCase, String.toList_ofList, Token.readFrom_map_toLower, Token.readAll]
  have hempty : Text.foldCase (normalize formula) = "" ↔ normalize formula = "" := by
    rw [Text.foldCase, String.ofList_eq_empty_iff, List.map_eq_nil_iff, String.toList_eq_nil_iff]
  rw [tokens, tokens, normalize_foldCase, hread]
  simp only [hempty]

theorem tokens_eq_of_foldCase_eq {formula other : String} (h : Text.foldCase other = Text.foldCase formula) :
    tokens other = tokens formula := by
  rw [← tokens_foldCase other, h, tokens_foldCase]

/-- **The letter case of a formula does not count.** -/
theorem evaluate_eq_of_foldCase_eq {formula other : String} (h : Text.foldCase other = Text.foldCase formula)
    (policy : AliasPolicy) (bindings : Bindings) :
    evaluate policy bindings other = evaluate policy bindings formula := by
  rw [evaluate, evaluate, tokens_eq_of_foldCase_eq h]

end Formula

/-! ## Values under names -/

namespace Bindings

/-- The same value is given to a name, letter case apart. -/
structure SameEntry (entry other : String × Float) : Prop where
  name : Text.foldCase entry.1 = Text.foldCase other.1
  value : entry.2 = other.2

theorem insert_congr {name other : String} (h : Text.foldCase name = Text.foldCase other)
    (bindings : Bindings) (value : Float) :
    bindings.insert name value = bindings.insert other value := by
  simp only [insert, h]

theorem foldl_insert_congr {values others : List (String × Float)}
    (h : List.Forall₂ SameEntry values others) (bindings : Bindings) :
    values.foldl (fun bindings (name, value) => bindings.insert name value) bindings =
      others.foldl (fun bindings (name, value) => bindings.insert name value) bindings := by
  induction h generalizing bindings with
  | nil => rfl
  | @cons entry other values others hsame hrest ih =>
    obtain ⟨name, value⟩ := entry
    obtain ⟨otherName, otherValue⟩ := other
    obtain rfl : value = otherValue := hsame.value
    simp only [List.foldl_cons]
    rw [insert_congr hsame.name, ih]

/-- **The letter case of the names that values are given to does not count.** -/
theorem ofList_congr {values others : List (String × Float)}
    (h : List.Forall₂ SameEntry values others) : ofList values = ofList others :=
  foldl_insert_congr h empty

end Bindings

end TradePlan
