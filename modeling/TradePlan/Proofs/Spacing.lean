import TradePlan.Formula.Evaluate
import TradePlan.Proofs.Lexemes

/-!
# Blanks between lexemes

Before a formula is read, its runs of blanks are made single spaces and the blanks around it are taken
away.  A blank ends every lexeme and writes no token, so the normalised text is cut into the lexemes of
the text, blanks apart, and has the tokens of the text itself:

    Token.readAll (Formula.normalize formula) = .ok tokens ↔ Token.readAll formula = .ok tokens
                                                                          (readAll_normalize)

Nothing is left of a formula only if it is blank.
-/

namespace TradePlan

/-! ## Words -/

namespace Text

section

variable {stop : Char → Bool} {front back : List Char} {b : Char}

theorem piecesAt_of_forall (h : ∀ c ∈ front, stop c = false) : piecesAt stop front = [front] := by
  induction front with
  | nil => rfl
  | cons c cs ih =>
    rw [piecesAt, if_neg (by simp [h c List.mem_cons_self]),
      ih fun other hother => h other (List.mem_cons_of_mem _ hother)]

theorem piecesAt_append (h : ∀ c ∈ front, stop c = false) (hb : stop b = true) :
    piecesAt stop (front ++ b :: back) = front :: piecesAt stop back := by
  induction front with
  | nil => rw [List.nil_append, piecesAt, if_pos hb]
  | cons c cs ih =>
    rw [List.cons_append, piecesAt, if_neg (by simp [h c List.mem_cons_self]),
      ih fun other hother => h other (List.mem_cons_of_mem _ hother)]

end

section

variable {front back : List Char} {b : Char}

theorem words_of_forall (h : ∀ c ∈ front, isBlank c = false) (hne : front ≠ []) :
    words front = [front] := by
  rw [words, piecesAt_of_forall h, List.filter_cons_of_pos (by simpa using hne), List.filter_nil]

theorem words_append (h : ∀ c ∈ front, isBlank c = false) (hne : front ≠ []) (hb : isBlank b = true) :
    words (front ++ b :: back) = front :: words back := by
  rw [words, piecesAt_append h hb, List.filter_cons_of_pos (by simpa using hne), words]

theorem words_cons_blank (hb : isBlank b = true) : words (b :: back) = words back := by
  rw [words, piecesAt, if_pos hb, List.filter_cons_of_neg (by simp), words]

end

theorem forall_of_mem_piecesAt {stop : Char → Bool} {cs piece : List Char}
    (h : piece ∈ piecesAt stop cs) : ∀ c ∈ piece, stop c = false := by
  induction cs generalizing piece with
  | nil =>
    obtain rfl := List.mem_singleton.mp h
    simp
  | cons c cs ih =>
    rw [piecesAt] at h
    split at h
    · rcases List.mem_cons.mp h with rfl | h
      · simp
      · exact ih h
    next hc =>
    rw [Bool.not_eq_true] at hc
    split at h
    · obtain rfl := List.mem_singleton.mp h
      simpa using hc
    · next first others hpieces =>
      rw [hpieces] at ih
      rcases List.mem_cons.mp h with rfl | h
      · exact List.forall_mem_cons.mpr ⟨hc, ih List.mem_cons_self⟩
      · exact ih (List.mem_cons_of_mem _ h)

/-- A word holds no blank and is not empty. -/
theorem isBlank_of_mem_words {cs word : List Char} (h : word ∈ words cs) :
    (∀ c ∈ word, isBlank c = false) ∧ word ≠ [] := by
  rw [words, List.mem_filter, decide_eq_true_eq] at h
  exact ⟨forall_of_mem_piecesAt h.1, h.2⟩

/-- Words with single spaces between them are the words of the text that they make. -/
theorem words_intercalate {parts : List (List Char)}
    (h : ∀ part ∈ parts, (∀ c ∈ part, isBlank c = false) ∧ part ≠ []) :
    words ([' '].intercalate parts) = parts := by
  induction parts with
  | nil => rfl
  | cons part parts ih =>
    obtain ⟨⟨hpart, hne⟩, hparts⟩ := List.forall_mem_cons.mp h
    cases parts with
    | nil => rw [List.intercalate_singleton, words_of_forall hpart hne]
    | cons other others =>
      rw [List.intercalate_cons_cons, List.append_assoc, List.singleton_append,
        words_append hpart hne (by decide), ih hparts]

theorem mem_intercalate {sep : List Char} {parts : List (List Char)} {c : Char}
    (h : c ∈ sep.intercalate parts) : c ∈ sep ∨ ∃ part ∈ parts, c ∈ part := by
  induction parts with
  | nil => cases h
  | cons part parts ih =>
    cases parts with
    | nil =>
      rw [List.intercalate_singleton] at h
      exact .inr ⟨part, List.mem_cons_self, h⟩
    | cons other others =>
      rw [List.intercalate_cons_cons, List.mem_append, List.mem_append] at h
      rcases h with (h | h) | h
      · exact .inr ⟨part, List.mem_cons_self, h⟩
      · exact .inl h
      · refine (ih h).imp_right ?_
        rintro ⟨word, hword, hc⟩
        exact ⟨word, List.mem_cons_of_mem _ hword, hc⟩

/-- A text without words is blank. -/
theorem words_eq_nil_iff {cs : List Char} : words cs = [] ↔ ∀ c ∈ cs, isBlank c = true := by
  induction cs with
  | nil => simp [words, piecesAt]
  | cons c cs ih =>
    by_cases hc : isBlank c = true
    · rw [words_cons_blank hc, ih]
      simp [hc]
    · have hne : words (c :: cs) ≠ [] := by
        rw [words, piecesAt, if_neg hc]
        split
        · simp
        · simp
      simp [hne, hc]

end Text

/-! ## The normalised text -/

namespace Formula

open Text

variable {front back : List Char} {b : Char}

theorem normalizeChars_eq_nil_iff {cs : List Char} :
    normalizeChars cs = [] ↔ ∀ c ∈ cs, isBlank c = true := by
  rw [← words_eq_nil_iff, normalizeChars]
  constructor
  · intro h
    have hwords := @words_intercalate (words cs) fun _ => isBlank_of_mem_words
    rw [← hwords, h]
    rfl
  · intro h
    rw [h]
    rfl

/-- **Nothing is left of a formula if it is blank.** -/
theorem normalize_eq_empty_iff {formula : String} :
    normalize formula = "" ↔ isBlankText formula = true := by
  rw [isBlankText, List.all_eq_true, ← normalizeChars_eq_nil_iff, normalize, String.ofList_eq_empty_iff]

/-- A blank of a normalised text is a space. -/
theorem eq_space_of_mem_normalizeChars {cs : List Char} {c : Char} (h : c ∈ normalizeChars cs)
    (hc : isBlank c = true) : c = ' ' := by
  rcases mem_intercalate h with h | ⟨word, hword, h⟩
  · exact List.mem_singleton.mp h
  · rw [(isBlank_of_mem_words hword).1 c h] at hc
    cases hc

/-- **What is normalised stays as it is.** -/
theorem normalize_normalize (formula : String) : normalize (normalize formula) = normalize formula := by
  rw [normalize, normalize, String.toList_ofList, normalizeChars, normalizeChars,
    words_intercalate fun _ => isBlank_of_mem_words]

theorem normalizeChars_of_forall (h : ∀ c ∈ front, isBlank c = false) :
    normalizeChars front = front := by
  by_cases hne : front = []
  · rw [hne]
    rfl
  · rw [normalizeChars, words_of_forall h hne, List.intercalate_singleton]

theorem normalizeChars_cons_blank (hb : isBlank b = true) :
    normalizeChars (b :: back) = normalizeChars back := by
  rw [normalizeChars, words_cons_blank hb, normalizeChars]

theorem normalizeChars_append (h : ∀ c ∈ front, isBlank c = false) (hne : front ≠ [])
    (hb : isBlank b = true) :
    normalizeChars (front ++ b :: back) = front ∧ normalizeChars back = [] ∨
      normalizeChars (front ++ b :: back) = front ++ ' ' :: normalizeChars back := by
  rw [normalizeChars, normalizeChars, words_append h hne hb]
  cases words back with
  | nil => exact .inl ⟨List.intercalate_singleton, rfl⟩
  | cons word others =>
    rw [List.intercalate_cons_cons, List.append_assoc]
    exact .inr rfl

end Formula

/-! ## Cuts at blanks -/

namespace Lexeme

open Token

/-- A blank ends the lexeme in front of it. -/
theorem IsLongest.append_blank {lexeme : Lexeme} {rest back : List Char} {b : Char}
    (h : lexeme.IsLongest rest) (hb : Text.isBlank b = true) :
    lexeme.IsLongest (rest ++ b :: back) := by
  obtain ⟨c, cs, rfl, hcs⟩ := h.isFormed.exists_ofChars
  rw [isLongest_iff hcs] at h ⊢
  intro next hnext
  cases rest with
  | nil =>
    obtain rfl := Option.some.inj hnext
    exact goesOn_of_isBlank (.inr hb)
  | cons other rest => exact h next hnext

/-- A text is cut at a blank. -/
theorem Cuts.append_blank {front back : List Char} {before after : List Lexeme} {b : Char}
    (hfront : Cuts front before) (hb : Text.isBlank b = true) (hback : Cuts back after) :
    Cuts (front ++ b :: back) (before ++ .blank b :: after) := by
  induction hfront with
  | nil =>
    have hlongest : (Lexeme.blank b).IsLongest back := by
      have h := (@isLongest_iff b [] back (by simp)).mpr fun next _ =>
        goesOn_of_isBlank (.inl hb)
      rwa [ofChars, if_pos hb] at h
    exact .cons hlongest hback
  | @cons lexeme rest lexemes hlongest hrest ih =>
    rw [List.append_assoc]
    exact .cons (hlongest.append_blank hb) ih

theorem filter_append_blank (before after : List Lexeme) (b : Char) :
    (before ++ .blank b :: after).filter (!·.isBlank) =
      before.filter (!·.isBlank) ++ after.filter (!·.isBlank) := by
  rw [List.filter_append, List.filter_cons_of_neg (by simp [isBlank])]

/-- **The normalised text is cut into the lexemes of the text, blanks apart.** -/
theorem Cuts.exists_normalizeChars {cs : List Char} {lexemes : List Lexeme} (h : Cuts cs lexemes) :
    ∃ others, Cuts (Formula.normalizeChars cs) others ∧
      others.filter (!·.isBlank) = lexemes.filter (!·.isBlank) := by
  cases hfind : cs.find? Text.isBlank with
  | none =>
    rw [Formula.normalizeChars_of_forall (by simpa using hfind)]
    exact ⟨lexemes, h, rfl⟩
  | some b =>
    obtain ⟨hb, front, back, hcs, hfront⟩ := List.find?_eq_some_iff_append.mp hfind
    have hfront : ∀ c ∈ front, Text.isBlank c = false := by simpa using hfront
    have hlt : back.length < cs.length := by
      rw [hcs, List.length_append, List.length_cons]
      omega
    obtain ⟨before, hbefore⟩ := exists_cuts front
    obtain ⟨after, hafter⟩ := exists_cuts back
    obtain rfl := (hcs ▸ h).unique (hbefore.append_blank hb hafter)
    obtain ⟨others, hothers, hsame⟩ := hafter.exists_normalizeChars
    rw [hcs, filter_append_blank, ← hsame]
    by_cases hne : front = []
    · obtain rfl := (hne ▸ hbefore).unique .nil
      rw [hne, List.nil_append, Formula.normalizeChars_cons_blank hb]
      exact ⟨others, hothers, rfl⟩
    · rcases Formula.normalizeChars_append hfront hne hb with ⟨hnormal, hnil⟩ | hnormal
      · -- what stands behind the blank is blank
        obtain rfl := (hnil ▸ hothers).unique .nil
        rw [hnormal]
        exact ⟨before, hbefore, by simp⟩
      · rw [hnormal]
        exact ⟨_, hbefore.append_blank (by decide) hothers, filter_append_blank _ _ _⟩
termination_by cs.length

end Lexeme

/-! ## Reading the normalised text -/

namespace Token

open Lexeme

/-- The normalised text has the tokens of the text. -/
theorem readFrom_normalizeChars (position : Nat) (cs : List Char) {tokens : List Token} :
    readFrom position (Formula.normalizeChars cs) = .ok tokens ↔
      readFrom position cs = .ok tokens := by
  obtain ⟨lexemes, hcuts⟩ := exists_cuts cs
  obtain ⟨others, hothers, hsame⟩ := hcuts.exists_normalizeChars
  rw [readFrom_eq_ok_iff hothers, readFrom_eq_ok_iff hcuts, hsame]

/-- **The normalised formula has the tokens of the formula.** -/
theorem readAll_normalize {formula : String} {tokens : List Token} :
    readAll (Formula.normalize formula) = .ok tokens ↔ readAll formula = .ok tokens := by
  rw [readAll, Formula.normalize, String.toList_ofList, readFrom_normalizeChars, readAll]

end Token

end TradePlan
