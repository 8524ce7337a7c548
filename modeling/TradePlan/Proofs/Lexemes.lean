import TradePlan.Proofs.Lexing

/-!
# Cutting a text into lexemes

A text is cut into lexemes in one way only: each of them is the longest that the text has at its
place.  The tokens are read off the lexemes one by one; blanks write none, and the first lexeme that
writes no token is the error.

    Cuts cs lexemes → Cuts cs others → lexemes = others                           (Cuts.unique)
    Cuts cs lexemes →
      (readFrom position cs = .ok tokens ↔ Forall₂ Writes (lexemes.filter (!·.isBlank)) tokens)
                                                                           (readFrom_eq_ok_iff)
-/

namespace TradePlan

/-! ## Numerals -/

/-- Whether digits and points are a number: with at least one digit and at most one point. -/
def isNumeral (cs : List Char) : Bool := cs.any Char.isDigit && decide (cs.count '.' ≤ 1)

theorem spanDigits_cases {cs : List Char} (h : ∀ c ∈ cs, Token.isNumberChar c = true) :
    ∃ digits rest, (∀ c ∈ digits, c.isDigit = true) ∧ cs = digits ++ rest ∧
      Decimal.spanDigits cs = (digits, rest) ∧ (rest = [] ∨ ∃ others, rest = '.' :: others) := by
  refine ⟨_, _, List.all_eq_true.mp List.all_takeWhile, List.takeWhile_append_dropWhile.symm, rfl, ?_⟩
  cases hrest : cs.dropWhile Char.isDigit with
  | nil => exact .inl rfl
  | cons c others =>
    have hnot := List.head?_dropWhile_not Char.isDigit cs
    rw [hrest] at hnot
    have hmem : c ∈ cs := by
      rw [← List.takeWhile_append_dropWhile (p := Char.isDigit) (l := cs), hrest]
      exact List.mem_append_right _ List.mem_cons_self
    have hc := h c hmem
    rcases Token.isNumberChar_iff.mp hc with hc | rfl
    · simp [hc] at hnot
    · exact .inr ⟨others, rfl⟩

theorem count_point_of_digits {digits : List Char} (h : ∀ c ∈ digits, c.isDigit = true) :
    digits.count '.' = 0 :=
  List.count_eq_zero.mpr fun hmem => nomatch h '.' hmem

theorem any_isDigit_of_digits {digits : List Char} (h : ∀ c ∈ digits, c.isDigit = true) :
    digits.any Char.isDigit = decide (digits ≠ []) := by
  cases digits with
  | nil => rfl
  | cons c cs => simp [h c List.mem_cons_self]

/-- Digits and points are read as a number if they are a numeral. -/
theorem isSome_readUnsigned {cs : List Char} (h : ∀ c ∈ cs, Token.isNumberChar c = true) :
    (Decimal.readUnsigned cs).isSome = isNumeral cs := by
  obtain ⟨whole, rest, hwhole, rfl, hspan, rfl | ⟨others, rfl⟩⟩ := spanDigits_cases h
  · rw [List.append_nil] at hspan ⊢
    simp only [Decimal.readUnsigned, hspan, Decimal.splitFraction, Decimal.readPower, isNumeral,
      count_point_of_digits hwhole, any_isDigit_of_digits hwhole]
    cases whole <;> simp
  · have hothers : ∀ c ∈ others, Token.isNumberChar c = true := fun c hc =>
      h c (List.mem_append_right _ (List.mem_cons_of_mem _ hc))
    obtain ⟨fraction, more, hfraction, rfl, hspan', hmore⟩ := spanDigits_cases hothers
    simp only [Decimal.readUnsigned, hspan, Decimal.splitFraction, hspan', isNumeral,
      List.any_append, List.any_cons, List.count_append, List.count_cons,
      count_point_of_digits hwhole, count_point_of_digits hfraction, any_isDigit_of_digits hwhole,
      any_isDigit_of_digits hfraction]
    rcases hmore with rfl | ⟨tail, rfl⟩
    · cases whole <;> cases fraction <;> simp [Decimal.readPower, show '.'.isDigit = false from rfl]
    · simp [Decimal.readPower]

/-! ## Characters -/

namespace Token

/-- The characters of formulas: blanks, letters and digits, and eleven others. -/
def isLegal (c : Char) : Bool :=
  Text.isBlank c || c.isAlphanum ||
    ['_', '.', '+', '-', '*', '/', '%', '^', '(', ')', ','].contains c

theorem isLegal_of_isNumberChar {c : Char} (h : isNumberChar c = true) : isLegal c = true := by
  rcases isNumberChar_iff.mp h with h | rfl
  · simp [isLegal, Char.isAlphanum, h]
  · decide

theorem isLegal_of_isNameChar {c : Char} (h : isNameChar c = true) : isLegal c = true := by
  rcases isNameChar_iff.mp h with h | rfl
  · simp [isLegal, h]
  · decide

theorem isLegal_of_ofSymbol? {c : Char} {token : Token} (h : ofSymbol? c = some token) :
    isLegal c = true := by
  unfold ofSymbol? at h
  split at h
  · decide
  · decide
  · decide
  · obtain ⟨op, hop, -⟩ := Option.map_eq_some_iff.mp h
    rw [← Operator.symbol_of_ofSymbol? hop]
    cases op <;> decide

/-- A legal character that stands by itself writes a token. -/
theorem isSome_ofSymbol? {c : Char} (hblank : Text.isBlank c = false)
    (hnumber : isNumberChar c = false) (hname : isNameStart c = false) :
    (ofSymbol? c).isSome = isLegal c := by
  have hword : c.isAlphanum = false := by
    simp only [isNumberChar, isNameStart, Bool.or_eq_false_iff] at hnumber hname
    rw [Char.isAlphanum, hnumber.1, hname.1, Bool.or_false]
  cases h : ofSymbol? c with
  | some token => rw [isLegal_of_ofSymbol? h, Option.isSome_some]
  | none =>
    rw [isLegal, hblank, hword, Option.isSome_none, Bool.false_or, Bool.false_or, eq_comm,
      Bool.eq_false_iff, ne_eq, List.contains_iff_mem]
    simp only [List.mem_cons, List.not_mem_nil, or_false]
    -- two of the other characters start a name or a number, and the rest write a token
    rintro (rfl | rfl | rfl | rfl | rfl | rfl | rfl | rfl | rfl | rfl | rfl)
    · cases hname
    · cases hnumber
    all_goals cases h

end Token

/-! ## Lexemes -/

/-- A stretch of a text that is read as one: a blank, digits and points, a name, or any other
character by itself. -/
inductive Lexeme where
  | blank (c : Char)
  | number (cs : List Char)
  | name (cs : List Char)
  | sign (c : Char)

namespace Lexeme

open Token

def chars : Lexeme → List Char
  | blank c | sign c => [c]
  | number cs | name cs => cs

def isBlank : Lexeme → Bool
  | blank _ => true
  | _ => false

/-- Whether the characters of a lexeme are those of its kind. -/
inductive IsFormed : Lexeme → Prop where
  | blank {c : Char} : Text.isBlank c = true → IsFormed (.blank c)
  | number {c : Char} {cs : List Char} :
      (∀ other ∈ c :: cs, other.isDigit = true ∨ other = '.') → IsFormed (.number (c :: cs))
  | name {c : Char} {cs : List Char} : c.isAlpha = true ∨ c = '_' →
      (∀ other ∈ cs, other.isAlphanum = true ∨ other = '_') → IsFormed (.name (c :: cs))
  | sign {c : Char} : Text.isBlank c = false → ¬ (c.isDigit = true ∨ c = '.') →
      ¬ (c.isAlpha = true ∨ c = '_') → IsFormed (.sign c)

/-- A lexeme is the longest that stands at its place, in front of the rest of the text. -/
structure IsLongest (lexeme : Lexeme) (rest : List Char) : Prop where
  isFormed : lexeme.IsFormed
  length_le : ∀ other : Lexeme, other.IsFormed → other.chars <+: lexeme.chars ++ rest →
    other.chars.length ≤ lexeme.chars.length

/-- A text is cut into lexemes, each of them the longest at its place. -/
inductive Cuts : List Char → List Lexeme → Prop where
  | nil : Cuts [] []
  | cons {lexeme : Lexeme} {rest : List Char} {lexemes : List Lexeme} : lexeme.IsLongest rest →
      Cuts rest lexemes → Cuts (lexeme.chars ++ rest) (lexeme :: lexemes)

/-- The signs of formulas, with their tokens. -/
def signs : List (Char × Token) :=
  [('(', .leftParen), (')', .rightParen), (',', .comma), ('+', .operator .add), ('-', .operator .sub),
    ('*', .operator .mul), ('/', .operator .div), ('%', .operator .rem), ('^', .operator .pow)]

/-- A lexeme writes a token.  The letters of names become small. -/
inductive Writes : Lexeme → Token → Prop where
  | number {cs : List Char} {value : Float} : Decimal.readChars cs = .ok value →
      Writes (.number cs) (.number value)
  | name {cs : List Char} : Writes (.name cs) (.identifier (String.ofList (cs.map Char.toLower)))
  | sign {c : Char} {token : Token} : (c, token) ∈ signs → Writes (.sign c) token

/-- What is wrong with a lexeme at a byte of a text. -/
inductive IsOffence (position : Nat) : Lexeme → FormulaError → Prop where
  | number {cs : List Char} : isNumeral cs = false →
      IsOffence position (.number cs) (.badNumber (String.ofList cs) position)
  | sign {c : Char} : isLegal c = false →
      IsOffence position (.sign c) (.illegalCharacter c position)

def isSound : Lexeme → Bool
  | number cs => isNumeral cs
  | sign c => isLegal c
  | _ => true

theorem mem_signs_iff {c : Char} {token : Token} :
    (c, token) ∈ signs ↔ ofSymbol? c = some token := by
  constructor
  · intro h
    simp only [signs, List.mem_cons, Prod.mk.injEq, List.not_mem_nil, or_false] at h
    rcases h with ⟨rfl, rfl⟩ | ⟨rfl, rfl⟩ | ⟨rfl, rfl⟩ | ⟨rfl, rfl⟩ | ⟨rfl, rfl⟩ | ⟨rfl, rfl⟩ |
      ⟨rfl, rfl⟩ | ⟨rfl, rfl⟩ | ⟨rfl, rfl⟩ <;> rfl
  · intro h
    unfold ofSymbol? at h
    split at h
    · obtain rfl := Option.some.inj h
      decide
    · obtain rfl := Option.some.inj h
      decide
    · obtain rfl := Option.some.inj h
      decide
    · obtain ⟨op, hop, rfl⟩ := Option.map_eq_some_iff.mp h
      rw [← Operator.symbol_of_ofSymbol? hop]
      cases op <;> decide

/-! ## The kind of a lexeme -/

/-- The lexeme of some characters, of the kind that the first of them says. -/
def ofChars (c : Char) (cs : List Char) : Lexeme :=
  if Text.isBlank c then blank c
  else if isNumberChar c then number (c :: cs)
  else if isNameStart c then name (c :: cs)
  else sign c

/-- Whether a lexeme that starts with a character goes on with another. -/
def goesOn (first next : Char) : Bool :=
  if isNumberChar first then isNumberChar next else isNameStart first && isNameChar next

theorem isBlank_of_goesOn {c next : Char} (h : goesOn c next = true) :
    Text.isBlank c = false ∧ Text.isBlank next = false := by
  rw [goesOn] at h
  split at h
  · next hc => exact ⟨isBlank_of_isNumberChar hc, isBlank_of_isNumberChar h⟩
  · rw [Bool.and_eq_true] at h
    exact ⟨(class_of_isNameStart h.1).1, isBlank_of_isNameChar h.2⟩

/-- A blank goes on with nothing, and nothing goes on with a blank. -/
theorem goesOn_of_isBlank {c next : Char} (h : Text.isBlank c = true ∨ Text.isBlank next = true) :
    goesOn c next = false := by
  rw [← Bool.not_eq_true]
  intro hgoes
  obtain ⟨hc, hnext⟩ := isBlank_of_goesOn hgoes
  rcases h with h | h
  · simp [hc] at h
  · simp [hnext] at h

theorem chars_ofChars {c : Char} {cs : List Char} (h : ∀ next ∈ cs, goesOn c next = true) :
    (ofChars c cs).chars = c :: cs := by
  have hnil : (∀ next, goesOn c next = false) → cs = [] := fun hnone => by
    refine List.eq_nil_iff_forall_not_mem.mpr fun next hnext => ?_
    have hgoes := h next hnext
    rw [hnone next] at hgoes
    cases hgoes
  rw [ofChars]
  split
  · next hblank => rw [chars, hnil fun next => goesOn_of_isBlank (.inl hblank)]
  · split
    · rfl
    · next hnumber =>
      split
      · rfl
      · next hname => rw [chars, hnil fun next => by simp [goesOn, hnumber, hname]]

theorem isFormed_ofChars {c : Char} {cs : List Char} (h : ∀ next ∈ cs, goesOn c next = true) :
    (ofChars c cs).IsFormed := by
  rw [ofChars]
  split
  · next hblank => exact .blank hblank
  · next hblank =>
    split
    · next hnumber =>
      refine .number fun next hnext => isNumberChar_iff.mp ?_
      rcases List.mem_cons.mp hnext with rfl | hnext
      · exact hnumber
      · simpa [goesOn, hnumber] using h next hnext
    · next hnumber =>
      split
      · next hname =>
        refine .name (isNameStart_iff.mp hname) fun next hnext => isNameChar_iff.mp ?_
        simpa [goesOn, hnumber, hname] using h next hnext
      · next hname =>
        exact .sign (Bool.eq_false_iff.mpr hblank) (mt isNumberChar_iff.mpr hnumber)
          (mt isNameStart_iff.mpr hname)

/-- A lexeme is told by its characters. -/
theorem IsFormed.exists_ofChars {lexeme : Lexeme} (h : lexeme.IsFormed) :
    ∃ c cs, lexeme = ofChars c cs ∧ ∀ next ∈ cs, goesOn c next = true := by
  cases h with
  | @blank c hblank => exact ⟨c, [], by rw [ofChars, if_pos hblank], by simp⟩
  | @number c cs hall =>
    simp only [← isNumberChar_iff, List.forall_mem_cons] at hall
    obtain ⟨hc, hcs⟩ := hall
    refine ⟨c, cs, ?_, fun next hnext => ?_⟩
    · rw [ofChars, if_neg (by simp [isBlank_of_isNumberChar hc]), if_pos hc]
    · rw [goesOn, if_pos hc, hcs next hnext]
  | @name c cs hc hcs =>
    simp only [← isNameStart_iff, ← isNameChar_iff] at hc hcs
    obtain ⟨hblank, hnumber⟩ := class_of_isNameStart hc
    refine ⟨c, cs, ?_, fun next hnext => ?_⟩
    · rw [ofChars, if_neg (by simp [hblank]), if_neg (by simp [hnumber]), if_pos hc]
    · rw [goesOn, if_neg (by simp [hnumber]), hc, hcs next hnext]
      rfl
  | @sign c hblank hnumber hname =>
    refine ⟨c, [], ?_, by simp⟩
    rw [ofChars, if_neg (by simp [hblank]), if_neg (mt isNumberChar_iff.mp hnumber),
      if_neg (mt isNameStart_iff.mp hname)]

theorem IsFormed.eq_of_chars_eq {lexeme other : Lexeme} (h : lexeme.IsFormed)
    (hother : other.IsFormed) (hchars : lexeme.chars = other.chars) : lexeme = other := by
  obtain ⟨c, cs, rfl, hcs⟩ := h.exists_ofChars
  obtain ⟨d, ds, rfl, hds⟩ := hother.exists_ofChars
  rw [chars_ofChars hcs, chars_ofChars hds] at hchars
  obtain ⟨rfl, rfl⟩ := List.cons.inj hchars
  rfl

/-- A lexeme is the longest at its place if it does not go on with the next character. -/
theorem isLongest_iff {c : Char} {cs rest : List Char} (h : ∀ next ∈ cs, goesOn c next = true) :
    (ofChars c cs).IsLongest rest ↔ ∀ next ∈ rest.head?, goesOn c next = false := by
  constructor
  · rintro ⟨-, hlongest⟩ next hnext
    obtain ⟨more, rfl⟩ := List.head?_eq_some_iff.mp hnext
    rw [← Bool.not_eq_true]
    intro hgoes
    have hlonger : ∀ other ∈ cs ++ [next], goesOn c other = true := by
      intro other hother
      rcases List.mem_append.mp hother with hother | hother
      · exact h other hother
      · rwa [List.mem_singleton.mp hother]
    have hle := hlongest _ (isFormed_ofChars hlonger) (by
      rw [chars_ofChars hlonger, chars_ofChars h]
      exact ⟨more, by simp⟩)
    rw [chars_ofChars hlonger, chars_ofChars h] at hle
    simp at hle
  · intro hstop
    refine ⟨isFormed_ofChars h, fun other hother hprefix => ?_⟩
    obtain ⟨d, ds, rfl, hds⟩ := hother.exists_ofChars
    rw [chars_ofChars h, chars_ofChars hds] at hprefix ⊢
    rw [List.cons_append] at hprefix
    obtain ⟨rfl, htail⟩ := List.cons_prefix_cons.mp hprefix
    rw [List.length_cons, List.length_cons]
    refine Nat.succ_le_succ (Nat.le_of_not_lt fun hlt => ?_)
    -- a longer lexeme would hold the character after the shorter one
    cases rest with
    | nil =>
      rw [List.append_nil] at htail
      exact Nat.not_le_of_lt hlt htail.length_le
    | cons next more =>
      have hnext : cs ++ [next] <+: ds :=
        List.prefix_of_prefix_length_le ⟨more, by simp⟩ htail (by simpa using hlt)
      have hmem : next ∈ ds := hnext.subset (by simp)
      have hgoes := hds next hmem
      rw [hstop next rfl] at hgoes
      cases hgoes

theorem IsLongest.stops {lexeme : Lexeme} {c : Char} {cs rest : List Char}
    (h : lexeme.IsLongest rest) (hchars : lexeme.chars = c :: cs) :
    ∀ next ∈ rest.head?, goesOn c next = false := by
  obtain ⟨d, ds, rfl, hds⟩ := h.isFormed.exists_ofChars
  rw [chars_ofChars hds] at hchars
  obtain ⟨rfl, rfl⟩ := List.cons.inj hchars
  exact (isLongest_iff hds).mp h

theorem IsFormed.chars_ne_nil {lexeme : Lexeme} (h : lexeme.IsFormed) : lexeme.chars ≠ [] := by
  cases h <;> exact List.cons_ne_nil _ _

/-! ## The cut of a text -/

theorem eq_nil_of_cuts_nil {cs : List Char} (h : Cuts cs []) : cs = [] := by
  cases h
  rfl

theorem cuts_cons_iff {cs : List Char} {lexeme : Lexeme} {lexemes : List Lexeme} :
    Cuts cs (lexeme :: lexemes) ↔
      ∃ rest, cs = lexeme.chars ++ rest ∧ lexeme.IsLongest rest ∧ Cuts rest lexemes := by
  constructor
  · intro h
    cases h with
    | cons hlongest hrest => exact ⟨_, rfl, hlongest, hrest⟩
  · rintro ⟨rest, rfl, hlongest, hrest⟩
    exact .cons hlongest hrest

/-- A text is cut into lexemes. -/
theorem exists_cuts (cs : List Char) : ∃ lexemes, Cuts cs lexemes := by
  cases cs with
  | nil => exact ⟨[], .nil⟩
  | cons c cs =>
    have hrun : ∀ next ∈ cs.takeWhile (goesOn c), goesOn c next = true :=
      List.all_eq_true.mp List.all_takeWhile
    have hstop : ∀ next ∈ (cs.dropWhile (goesOn c)).head?, goesOn c next = false := by
      intro next hnext
      have hnot := List.head?_dropWhile_not (goesOn c) cs
      rw [hnext] at hnot
      simpa using hnot
    obtain ⟨lexemes, hlexemes⟩ := exists_cuts (cs.dropWhile (goesOn c))
    refine ⟨ofChars c (cs.takeWhile (goesOn c)) :: lexemes, cuts_cons_iff.mpr ⟨_, ?_,
      (isLongest_iff hrun).mpr hstop, hlexemes⟩⟩
    rw [chars_ofChars hrun, List.cons_append, List.takeWhile_append_dropWhile]
termination_by cs.length
decreasing_by
  have hle := (List.dropWhile_sublist (goesOn c) (l := cs)).length_le
  exact Nat.lt_succ_of_le hle

/-- **A text is cut in one way only.** -/
theorem Cuts.unique {cs : List Char} {lexemes others : List Lexeme} (h : Cuts cs lexemes)
    (hothers : Cuts cs others) : lexemes = others := by
  induction h generalizing others with
  | nil =>
    cases others with
    | nil => rfl
    | cons other others =>
      obtain ⟨rest, hchars, hlongest, -⟩ := cuts_cons_iff.mp hothers
      exact absurd (List.append_eq_nil_iff.mp hchars.symm).1 hlongest.isFormed.chars_ne_nil
  | @cons lexeme rest lexemes hlongest hrest ih =>
    cases others with
    | nil =>
      have hnil := eq_nil_of_cuts_nil hothers
      exact absurd (List.append_eq_nil_iff.mp hnil).1 hlongest.isFormed.chars_ne_nil
    | cons other others =>
      obtain ⟨more, hchars, hother, hmore⟩ := cuts_cons_iff.mp hothers
      -- neither of the first lexemes is longer than the other
      have hlen : lexeme.chars.length = other.chars.length := by
        refine Nat.le_antisymm (hother.length_le _ hlongest.isFormed ?_)
          (hlongest.length_le _ hother.isFormed ?_)
        · exact ⟨rest, hchars⟩
        · exact ⟨more, hchars.symm⟩
      obtain ⟨hsame, rfl⟩ := List.append_inj hchars hlen
      rw [hlongest.isFormed.eq_of_chars_eq hother.isFormed hsame, ih hmore]

/-! ## Reading a lexeme -/

/-- **A lexeme is read as nothing, as the token that it writes, or as an error.** -/
theorem readFrom_lexeme {lexeme : Lexeme} {rest : List Char} (h : lexeme.IsLongest rest)
    (position : Nat) :
    (lexeme.isBlank = true ∧ readFrom position (lexeme.chars ++ rest) =
        readFrom (position + Text.byteLength lexeme.chars) rest) ∨
      (∃ token, lexeme.Writes token ∧ readFrom position (lexeme.chars ++ rest) =
        readFrom (position + Text.byteLength lexeme.chars) rest >>= fun tokens =>
          .ok (token :: tokens)) ∨
      ∃ fault, lexeme.IsOffence position fault ∧
        readFrom position (lexeme.chars ++ rest) = .error fault := by
  cases h.isFormed with
  | @blank c hblank =>
    left
    rw [chars, List.singleton_append, readFrom, if_pos hblank]
    exact ⟨rfl, rfl⟩
  | @number c cs hall =>
    simp only [← isNumberChar_iff] at hall
    obtain ⟨hc, hcs⟩ := List.forall_mem_cons.mp hall
    have hstop : ∀ next ∈ rest.head?, isNumberChar next = false := fun next hnext => by
      simpa [goesOn, hc] using h.stops rfl next hnext
    right
    rw [chars, List.cons_append, readFrom, if_neg (by simp [isBlank_of_isNumberChar hc]), if_pos hc]
    simp only [takeWhile_append_stop hcs hstop, dropWhile_append_stop hcs hstop]
    have hnumeral := isSome_readUnsigned hall
    have hread := readChars_of_isNumberChar hc cs
    cases hunsigned : Decimal.readUnsigned (c :: cs) with
    | some d =>
      rw [hunsigned] at hread
      rw [hread]
      exact .inl ⟨_, .number hread, rfl⟩
    | none =>
      rw [hunsigned] at hread hnumeral
      rw [hread]
      exact .inr ⟨_, .number hnumeral.symm, rfl⟩
  | @name c cs hc hcs =>
    simp only [← isNameStart_iff, ← isNameChar_iff] at hc hcs
    obtain ⟨hblank, hnumber⟩ := class_of_isNameStart hc
    have hstop : ∀ next ∈ rest.head?, isNameChar next = false := fun next hnext => by
      simpa [goesOn, hnumber, hc] using h.stops rfl next hnext
    right; left
    rw [chars, List.cons_append, readFrom, if_neg (by simp [hblank]), if_neg (by simp [hnumber]),
      if_pos hc]
    simp only [takeWhile_append_stop hcs hstop, dropWhile_append_stop hcs hstop, Text.foldCase,
      String.toList_ofList]
    exact ⟨_, .name, rfl⟩
  | @sign c hblank hnumber hname =>
    rw [← isNumberChar_iff, Bool.not_eq_true] at hnumber
    rw [← isNameStart_iff, Bool.not_eq_true] at hname
    right
    have hlegal := isSome_ofSymbol? hblank hnumber hname
    rw [chars, List.singleton_append, readFrom, if_neg (by simp [hblank]),
      if_neg (by simp [hnumber]), if_neg (by simp [hname])]
    cases htoken : ofSymbol? c with
    | some token => exact .inl ⟨token, .sign (mem_signs_iff.mpr htoken), rfl⟩
    | none =>
      rw [htoken] at hlegal
      exact .inr ⟨_, .sign hlegal.symm, rfl⟩

/-! ## Sound lexemes -/

theorem Writes.unique {lexeme : Lexeme} {token other : Token} (h : lexeme.Writes token)
    (hother : lexeme.Writes other) : token = other := by
  cases h with
  | number hread =>
    cases hother with
    | number hother =>
      obtain rfl := Except.ok.inj (hread.symm.trans hother)
      rfl
  | name =>
    cases hother
    rfl
  | sign htoken =>
    cases hother with
    | sign hother =>
      exact Option.some.inj ((mem_signs_iff.mp htoken).symm.trans (mem_signs_iff.mp hother))

theorem Writes.isSound {lexeme : Lexeme} {token : Token} (h : lexeme.Writes token)
    (hformed : lexeme.IsFormed) : lexeme.isSound = true := by
  cases h with
  | number hread =>
    cases hformed with
    | @number c cs hall =>
      simp only [← isNumberChar_iff] at hall
      rw [readChars_of_isNumberChar (hall c List.mem_cons_self)] at hread
      rw [Lexeme.isSound, ← isSome_readUnsigned hall]
      split at hread
      · next d hd => rw [hd, Option.isSome_some]
      · cases hread
  | name => rfl
  | sign htoken => exact isLegal_of_ofSymbol? (mem_signs_iff.mp htoken)

theorem Writes.isBlank {lexeme : Lexeme} {token : Token} (h : lexeme.Writes token) :
    lexeme.isBlank = false := by
  cases h <;> rfl

theorem isSound_of_isBlank {lexeme : Lexeme} (h : lexeme.isBlank = true) :
    lexeme.isSound = true := by
  cases lexeme with
  | blank c => rfl
  | _ => cases h

theorem isBlank_of_not_isSound {lexeme : Lexeme} (h : lexeme.isSound = false) :
    lexeme.isBlank = false := by
  rw [Bool.eq_false_iff]
  intro hblank
  rw [isSound_of_isBlank hblank] at h
  cases h

theorem isSound_eq_false_iff {lexeme : Lexeme} (position : Nat) :
    lexeme.isSound = false ↔ ∃ fault, lexeme.IsOffence position fault := by
  constructor
  · intro h
    cases lexeme with
    | blank c => cases h
    | number cs => exact ⟨_, .number h⟩
    | name cs => cases h
    | sign c => exact ⟨_, .sign h⟩
  · rintro ⟨fault, h⟩
    cases h with
    | number h => exact h
    | sign h => exact h

theorem IsOffence.unique {lexeme : Lexeme} {position : Nat} {fault other : FormulaError}
    (h : lexeme.IsOffence position fault) (hother : lexeme.IsOffence position other) :
    fault = other := by
  cases h <;> cases hother <;> rfl

/-! ## Reading a text -/

/-- The error is about the first offence in lexemes that start at a byte. -/
def IsFirstOffence (position : Nat) (lexemes : List Lexeme) (fault : FormulaError) : Prop :=
  ∃ before lexeme after, lexemes = before ++ lexeme :: after ∧
    (∀ other ∈ before, other.isSound = true) ∧
    lexeme.IsOffence (position + Text.byteLength (before.flatMap chars)) fault

section

variable {position : Nat} {lexeme : Lexeme} {lexemes : List Lexeme} {fault other : FormulaError}

theorem isFirstOffence_cons_of_isSound (h : lexeme.isSound = true) :
    IsFirstOffence position (lexeme :: lexemes) fault ↔
      IsFirstOffence (position + Text.byteLength lexeme.chars) lexemes fault := by
  constructor
  · rintro ⟨before, offence, after, hsplit, hbefore, hoffence⟩
    cases before with
    | nil =>
      obtain ⟨rfl, -⟩ := List.cons.inj hsplit
      rw [(isSound_eq_false_iff _).mpr ⟨fault, hoffence⟩] at h
      cases h
    | cons first before =>
      obtain ⟨rfl, hrest⟩ := List.cons.inj hsplit
      refine ⟨before, offence, after, hrest, fun other hother =>
        hbefore other (List.mem_cons_of_mem _ hother), ?_⟩
      rwa [List.flatMap_cons, Text.byteLength_append, ← Nat.add_assoc] at hoffence
  · rintro ⟨before, offence, after, rfl, hbefore, hoffence⟩
    refine ⟨lexeme :: before, offence, after, rfl, List.forall_mem_cons.mpr ⟨h, hbefore⟩, ?_⟩
    rwa [List.flatMap_cons, Text.byteLength_append, ← Nat.add_assoc]

theorem isFirstOffence_cons_of_isOffence (h : lexeme.IsOffence position fault) :
    IsFirstOffence position (lexeme :: lexemes) other ↔ fault = other := by
  constructor
  · rintro ⟨before, offence, after, hsplit, hbefore, hoffence⟩
    cases before with
    | nil =>
      obtain ⟨rfl, -⟩ := List.cons.inj hsplit
      exact h.unique hoffence
    | cons first before =>
      obtain ⟨rfl, -⟩ := List.cons.inj hsplit
      have hsound := hbefore _ List.mem_cons_self
      rw [(isSound_eq_false_iff _).mpr ⟨fault, h⟩] at hsound
      cases hsound
  · rintro rfl
    exact ⟨[], lexeme, lexemes, rfl, by simp, h⟩

end

/-- **A text is read as the tokens that its lexemes write, blanks apart.** -/
theorem readFrom_eq_ok_iff {cs : List Char} {lexemes : List Lexeme} (h : Cuts cs lexemes)
    {position : Nat} {tokens : List Token} :
    readFrom position cs = .ok tokens ↔
      List.Forall₂ Writes (lexemes.filter (!·.isBlank)) tokens := by
  induction h generalizing position tokens with
  | nil =>
    rw [readFrom, List.filter_nil, List.forall₂_nil_left_iff]
    exact ⟨fun h => (Except.ok.inj h).symm, fun h => congrArg Except.ok h.symm⟩
  | @cons lexeme rest lexemes hlongest hrest ih =>
    rcases readFrom_lexeme hlongest position with
      ⟨hblank, hread⟩ | ⟨token, hwrites, hread⟩ | ⟨fault, hoffence, hread⟩
    · rw [hread, ih, List.filter_cons_of_neg (by simp [hblank])]
    · rw [hread, List.filter_cons_of_pos (by simp [hwrites.isBlank]), bind_eq_ok_iff,
        List.forall₂_cons_left_iff]
      simp only [ih]
      constructor
      · rintro ⟨others, hothers, htokens⟩
        exact ⟨token, others, hwrites, hothers, (Except.ok.inj htokens).symm⟩
      · rintro ⟨other, others, hother, hothers, rfl⟩
        rw [hwrites.unique hother]
        exact ⟨others, hothers, rfl⟩
    · have hsound := (isSound_eq_false_iff _).mpr ⟨fault, hoffence⟩
      rw [hread, List.filter_cons_of_pos, List.forall₂_cons_left_iff]
      · refine ⟨fun h => (by cases h), ?_⟩
        rintro ⟨token, others, hwrites, -, -⟩
        rw [hwrites.isSound hlongest.isFormed] at hsound
        cases hsound
      · rw [isBlank_of_not_isSound hsound, Bool.not_false]

/-- **What is wrong with a text is its first offence.** -/
theorem readFrom_eq_error_iff {cs : List Char} {lexemes : List Lexeme} (h : Cuts cs lexemes)
    {position : Nat} {fault : FormulaError} :
    readFrom position cs = .error fault ↔ IsFirstOffence position lexemes fault := by
  induction h generalizing position with
  | nil =>
    rw [readFrom]
    refine ⟨fun h => (by cases h), ?_⟩
    rintro ⟨before, lexeme, after, hsplit, -, -⟩
    simp at hsplit
  | @cons lexeme rest lexemes hlongest hrest ih =>
    rcases readFrom_lexeme hlongest position with
      ⟨hblank, hread⟩ | ⟨token, hwrites, hread⟩ | ⟨other, hoffence, hread⟩
    · rw [hread, ih, isFirstOffence_cons_of_isSound (isSound_of_isBlank hblank)]
    · rw [hread, isFirstOffence_cons_of_isSound (hwrites.isSound hlongest.isFormed), ← ih,
        bind_eq_error_iff]
      simp
    · rw [hread, isFirstOffence_cons_of_isOffence hoffence]
      simp

/-- A text is read if nothing is wrong with its lexemes. -/
theorem exists_tokens_iff {cs : List Char} {lexemes : List Lexeme} (h : Cuts cs lexemes)
    {position : Nat} :
    (∃ tokens, readFrom position cs = .ok tokens) ↔
      ∀ lexeme ∈ lexemes, lexeme.isSound = true := by
  induction h generalizing position with
  | nil =>
    rw [readFrom]
    simp
  | @cons lexeme rest lexemes hlongest hrest ih =>
    rw [List.forall_mem_cons]
    rcases readFrom_lexeme hlongest position with
      ⟨hblank, hread⟩ | ⟨token, hwrites, hread⟩ | ⟨fault, hoffence, hread⟩
    · rw [hread, ih, isSound_of_isBlank hblank]
      simp
    · rw [hread, ← @ih (position + Text.byteLength lexeme.chars),
        hwrites.isSound hlongest.isFormed]
      simp [bind_eq_ok_iff]
    · rw [hread, (isSound_eq_false_iff position).mpr ⟨fault, hoffence⟩]
      simp

/-- Nothing is wrong with a lexeme of legal characters, but that it may be no numeral. -/
theorem isSound_iff {lexeme : Lexeme} (h : lexeme.IsFormed) :
    lexeme.isSound = true ↔ (∀ c ∈ lexeme.chars, isLegal c = true) ∧
      ∀ cs, .number cs = lexeme → isNumeral cs = true := by
  cases h with
  | blank hblank => simp [isSound, chars, isLegal, hblank]
  | @number c cs hall =>
    have hlegal : ∀ other ∈ c :: cs, isLegal other = true := fun other hother =>
      isLegal_of_isNumberChar (isNumberChar_iff.mpr (hall other hother))
    refine ⟨fun hnumeral => ⟨hlegal, ?_⟩, fun hall => hall.2 _ rfl⟩
    rintro cs heq
    rw [Lexeme.number.inj heq]
    exact hnumeral
  | @name c cs hc hcs =>
    have hall : ∀ other ∈ c :: cs, isNameChar other = true :=
      List.forall_mem_cons.mpr ⟨isNameChar_of_isNameStart (isNameStart_iff.mpr hc),
        fun other hother => isNameChar_iff.mpr (hcs other hother)⟩
    have hlegal : ∀ other ∈ c :: cs, isLegal other = true := fun other hother =>
      isLegal_of_isNameChar (hall other hother)
    exact ⟨fun _ => ⟨hlegal, fun cs heq => nomatch heq⟩, fun _ => rfl⟩
  | sign _ _ _ => simp [isSound, chars]

theorem forall_isSound_iff {cs : List Char} {lexemes : List Lexeme} (h : Cuts cs lexemes) :
    (∀ lexeme ∈ lexemes, lexeme.isSound = true) ↔ (∀ c ∈ cs, isLegal c = true) ∧
      ∀ digits, .number digits ∈ lexemes → isNumeral digits = true := by
  induction h with
  | nil => simp
  | @cons lexeme rest lexemes hlongest hrest ih =>
    rw [List.forall_mem_cons, ih, isSound_iff hlongest.isFormed]
    simp only [List.mem_append, List.mem_cons, or_imp, forall_and]
    tauto

/-! ## The text before an offence -/

theorem IsLongest.of_append {lexeme : Lexeme} {rest more : List Char}
    (h : lexeme.IsLongest (rest ++ more)) : lexeme.IsLongest rest := by
  refine ⟨h.isFormed, fun other hother hprefix => h.length_le other hother ?_⟩
  rw [← List.append_assoc]
  exact hprefix.trans (List.prefix_append _ _)

/-- A text is cut at the end of each of its lexemes. -/
theorem Cuts.split {cs : List Char} {before after : List Lexeme} (h : Cuts cs (before ++ after)) :
    ∃ back, cs = before.flatMap chars ++ back ∧ Cuts (before.flatMap chars) before ∧
      Cuts back after := by
  induction before generalizing cs with
  | nil => exact ⟨cs, rfl, .nil, h⟩
  | cons lexeme before ih =>
    obtain ⟨rest, rfl, hlongest, hrest⟩ := cuts_cons_iff.mp h
    obtain ⟨back, rfl, hbefore, hafter⟩ := ih hrest
    exact ⟨back, by simp, .cons hlongest.of_append hbefore, hafter⟩

theorem utf8ByteSize_ofList (cs : List Char) :
    (String.ofList cs).utf8ByteSize = Text.byteLength cs := by
  induction cs with
  | nil => rfl
  | cons c cs ih =>
    rw [String.ofList_cons, String.utf8ByteSize_append, String.utf8ByteSize_singleton, ih,
      Text.byteLength]

/-- An error stands at the byte at which the text that it reports starts, after a text that is read. -/
theorem exists_split_of_readAll_error {formula : String} {fault : FormulaError}
    (h : readAll formula = .error fault) :
    ∃ front back : String, formula = front ++ back ∧ (∃ tokens, readAll front = .ok tokens) ∧
      ((∃ c, fault = .illegalCharacter c front.utf8ByteSize ∧ [c] <+: back.toList) ∨
        ∃ text, fault = .badNumber text front.utf8ByteSize ∧ text.toList <+: back.toList) := by
  obtain ⟨lexemes, hcuts⟩ := exists_cuts formula.toList
  obtain ⟨before, lexeme, after, rfl, hbefore, hoffence⟩ := (readFrom_eq_error_iff hcuts).mp h
  obtain ⟨back, hformula, hfront, hback⟩ := hcuts.split
  obtain ⟨rest, rfl, -, -⟩ := cuts_cons_iff.mp hback
  refine ⟨String.ofList (before.flatMap chars), String.ofList (lexeme.chars ++ rest), ?_, ?_, ?_⟩
  · rw [← String.ofList_append, ← hformula, String.ofList_toList]
  · rw [readAll, String.toList_ofList]
    exact (exists_tokens_iff hfront).mpr hbefore
  · rw [Nat.zero_add] at hoffence
    rw [utf8ByteSize_ofList, String.toList_ofList]
    cases hoffence with
    | number hnumeral =>
      refine .inr ⟨_, rfl, ?_⟩
      rw [String.toList_ofList]
      exact List.prefix_append _ _
    | sign hlegal => exact .inl ⟨_, rfl, List.prefix_append _ _⟩

end Lexeme

/-! ## Top theorem -/

open Lexeme in
/-- **A formula is read by the longest match.**  Its text is cut into lexemes in one way; it is read if
its characters are legal and its numbers are numerals; the tokens are those that the lexemes write in
their order, blanks apart; and an error is the first offence, with the byte at which it starts. -/
theorem readAll_by_longest_match (formula : String) :
    ∃ lexemes, Cuts formula.toList lexemes ∧
      (∀ others, Cuts formula.toList others → others = lexemes) ∧
      ((∃ tokens, Token.readAll formula = .ok tokens) ↔
        (∀ c ∈ formula.toList, Token.isLegal c = true) ∧
          ∀ cs, .number cs ∈ lexemes → isNumeral cs = true) ∧
      (∀ tokens, Token.readAll formula = .ok tokens ↔
        List.Forall₂ Writes (lexemes.filter (!·.isBlank)) tokens) ∧
      (∀ fault, Token.readAll formula = .error fault ↔ IsFirstOffence 0 lexemes fault) ∧
      ∀ fault, Token.readAll formula = .error fault →
        ∃ front back : String, formula = front ++ back ∧
          (∃ tokens, Token.readAll front = .ok tokens) ∧
          ((∃ c, fault = .illegalCharacter c front.utf8ByteSize ∧ [c] <+: back.toList) ∨
            ∃ text, fault = .badNumber text front.utf8ByteSize ∧ text.toList <+: back.toList) := by
  obtain ⟨lexemes, hcuts⟩ := exists_cuts formula.toList
  refine ⟨lexemes, hcuts, fun others hothers => hothers.unique hcuts, ?_, ?_, ?_, ?_⟩
  · exact (exists_tokens_iff hcuts).trans (forall_isSound_iff hcuts)
  · exact fun tokens => readFrom_eq_ok_iff hcuts
  · exact fun fault => readFrom_eq_error_iff hcuts
  · exact fun fault => exists_split_of_readAll_error

end TradePlan
