import TradePlan.Formula.Evaluate
import TradePlan.Proofs.DecimalText
import TradePlan.Proofs.Outcome

/-!
# Reading written tokens

The words that a formula is written with, and how each is read back in front of what follows it: a
name or a number ends where no character of its kind follows, and a sign ends by itself.  In the
other direction, whatever is read has the form of a token:

    readFrom position cs = .ok tokens → ∀ token ∈ tokens, token.isShaped = true
-/

namespace TradePlan

/-! ## Texts -/

theorem Text.foldCase_foldCase (text : String) :
    Text.foldCase (Text.foldCase text) = Text.foldCase text := by
  rw [Text.foldCase, Text.foldCase, String.toList_ofList, List.map_map]
  congr 1
  exact List.map_congr_left fun c _ => Char.toLower_toLower_eq_toLower c

/-- A character of ASCII takes one byte. -/
theorem Text.utf8Size_of_lt {c : Char} (h : c.toNat < 0x80) : c.utf8Size = 1 := by
  rw [Char.utf8Size_eq_one_iff, UInt32.le_iff_toNat_le]
  exact Nat.le_of_lt_succ h

namespace Token

/-! ## Characters -/

def isSmallStart (c : Char) : Bool := c.isLower || c == '_'

def isSmallChar (c : Char) : Bool := c.isLower || c.isDigit || c == '_'

theorem isBlank_of_printed {c : Char} (hlow : 0x20 < c.toNat) (hhigh : c.toNat < 0x7F) :
    Text.isBlank c = false := by
  rw [Bool.eq_false_iff, ne_eq, Text.isBlank, Text.isWithin_iff]
  simp only [Text.blankRanges, List.mem_cons, List.not_mem_nil, or_false, exists_eq_or_imp,
    exists_eq_left]
  omega

theorem isLower_iff_toNat {c : Char} : c.isLower = true ↔ 0x61 ≤ c.toNat ∧ c.toNat ≤ 0x7A := by
  simp only [Char.isLower, Bool.and_eq_true, decide_eq_true_eq, ge_iff_le, UInt32.le_iff_toNat_le]
  rfl

theorem toNat_of_isSmallChar {c : Char} (h : isSmallChar c = true) :
    0x61 ≤ c.toNat ∧ c.toNat ≤ 0x7A ∨ 0x30 ≤ c.toNat ∧ c.toNat ≤ 0x39 ∨ c.toNat = 0x5F := by
  simp only [isSmallChar, Bool.or_eq_true, beq_iff_eq] at h
  rcases h with (h | h) | rfl
  · exact .inl (isLower_iff_toNat.mp h)
  · exact .inr (.inl (Char.isDigit_iff_toNat.mp h))
  · exact .inr (.inr rfl)

theorem isNameChar_of_isSmallChar {c : Char} (h : isSmallChar c = true) : isNameChar c = true := by
  simp only [isSmallChar, isNameChar, Char.isAlphanum, Char.isAlpha, Bool.or_eq_true] at h ⊢
  rcases h with (h | h) | h
  · exact .inl (.inl (.inr h))
  · exact .inl (.inr h)
  · exact .inr h

theorem isSmallChar_of_isSmallStart {c : Char} (h : isSmallStart c = true) :
    isSmallChar c = true := by
  simp only [isSmallStart, isSmallChar, Bool.or_eq_true] at h ⊢
  rcases h with h | h
  · exact .inl (.inl h)
  · exact .inr h

theorem isNameStart_of_isSmallStart {c : Char} (h : isSmallStart c = true) :
    isNameStart c = true := by
  simp only [isSmallStart, isNameStart, Char.isAlpha, Bool.or_eq_true] at h ⊢
  rcases h with h | h
  · exact .inl (.inr h)
  · exact .inr h

theorem toNat_of_isNameStart {c : Char} (h : isNameStart c = true) :
    0x41 ≤ c.toNat ∧ c.toNat ≤ 0x5A ∨ 0x61 ≤ c.toNat ∧ c.toNat ≤ 0x7A ∨ c.toNat = 0x5F := by
  simp only [isNameStart, Char.isAlpha, Bool.or_eq_true, beq_iff_eq] at h
  rcases h with (h | h) | rfl
  · exact .inl (isUpper_iff_toNat.mp h)
  · exact .inr (.inl (isLower_iff_toNat.mp h))
  · exact .inr (.inr rfl)

/-- A name starts as no blank and no number does. -/
theorem class_of_isNameStart {c : Char} (h : isNameStart c = true) :
    Text.isBlank c = false ∧ isNumberChar c = false := by
  have hnat := toNat_of_isNameStart h
  refine ⟨isBlank_of_printed (by omega) (by omega), ?_⟩
  rw [Bool.eq_false_iff, ne_eq, isNumberChar_iff]
  rintro (hdigit | rfl)
  · have hle : c.toNat ≤ 0x39 := (Char.isDigit_iff_toNat.mp hdigit).2
    omega
  · exact absurd hnat (by decide)

theorem toLower_of_isSmallChar {c : Char} (h : isSmallChar c = true) : c.toLower = c := by
  have hnat := toNat_of_isSmallChar h
  apply Char.toLower_eq_of_not_isUpper
  rw [isUpper_iff_toNat]
  omega

theorem isSmallStart_toLower {c : Char} (h : isNameStart c = true) :
    isSmallStart c.toLower = true := by
  rcases isNameStart_iff.mp h with h | rfl
  · rw [isSmallStart, Char.isLower_toLower_eq_isAlpha, h, Bool.true_or]
  · decide

theorem isSmallChar_toLower {c : Char} (h : isNameChar c = true) : isSmallChar c.toLower = true := by
  simp only [isNameChar, Char.isAlphanum, Bool.or_eq_true, beq_iff_eq] at h
  rcases h with (h | h) | rfl
  · rw [isSmallChar, Char.isLower_toLower_eq_isAlpha, h, Bool.true_or, Bool.true_or]
  · have hsmall : isSmallChar c = true := by
      rw [isSmallChar, h, Bool.or_true, Bool.true_or]
    rwa [toLower_of_isSmallChar hsmall]
  · decide

/-! ## Names -/

/-- Whether a text has the form of the names of tokens: small letters, digits and underscores, and
no digit first. -/
def isSmallName (name : String) : Bool :=
  match name.toList with
  | [] => false
  | c :: cs => isSmallStart c && cs.all isSmallChar

theorem isSmallName_iff {name : String} :
    isSmallName name = true ↔ ∃ c cs, name.toList = c :: cs ∧ isSmallStart c = true ∧
      ∀ other ∈ cs, isSmallChar other = true := by
  rw [isSmallName]
  constructor
  · intro h
    split at h
    · cases h
    · next c cs hname =>
      rw [Bool.and_eq_true, List.all_eq_true] at h
      exact ⟨c, cs, hname, h⟩
  · rintro ⟨c, cs, hname, hc, hcs⟩
    rw [hname]
    simp only [Bool.and_eq_true, List.all_eq_true]
    exact ⟨hc, hcs⟩

/-- A name in small letters is not changed when its letters are made small. -/
theorem foldCase_of_isSmallName {name : String} (h : isSmallName name = true) :
    Text.foldCase name = name := by
  obtain ⟨c, cs, hname, hc, hcs⟩ := isSmallName_iff.mp h
  have hmap : name.toList.map Char.toLower = name.toList := by
    rw [hname]
    refine (List.map_congr_left fun other hother => ?_).trans (List.map_id _)
    rcases List.mem_cons.mp hother with rfl | hother
    · exact toLower_of_isSmallChar (isSmallChar_of_isSmallStart hc)
    · exact toLower_of_isSmallChar (hcs other hother)
  rw [Text.foldCase, hmap, String.ofList_toList]

theorem isSmallName_foldCase {c : Char} {cs : List Char} (hc : isNameStart c = true)
    (hcs : ∀ other ∈ cs, isNameChar other = true) :
    isSmallName (Text.foldCase (String.ofList (c :: cs))) = true := by
  refine isSmallName_iff.mpr ⟨c.toLower, cs.map Char.toLower, ?_, isSmallStart_toLower hc, ?_⟩
  · rw [Text.foldCase, String.toList_ofList, String.toList_ofList, List.map_cons]
  · intro other hother
    obtain ⟨before, hbefore, rfl⟩ := List.mem_map.mp hother
    exact isSmallChar_toLower (hcs before hbefore)

/-! ## Reading what is written -/

/-- The text is read as the tokens, wherever it stands. -/
def Reads (cs : List Char) (tokens : List Token) : Prop :=
  ∀ position, readFrom position cs = .ok tokens

theorem reads_nil : Reads [] [] := by
  intro position
  rw [readFrom]

theorem reads_space {rest : List Char} {tokens : List Token} (h : Reads rest tokens) :
    Reads (' ' :: rest) tokens := by
  intro position
  rw [readFrom, if_pos (by decide)]
  exact h _

/-- A sign is a character that is no part of a number or a name. -/
def isSign (c : Char) : Bool := !Text.isBlank c && !isNumberChar c && !isNameChar c

theorem isNameChar_of_isNameStart {c : Char} (h : isNameStart c = true) : isNameChar c = true := by
  simp only [isNameStart, isNameChar, Char.isAlphanum, Bool.or_eq_true] at h ⊢
  rcases h with h | h
  · exact .inl (.inl h)
  · exact .inr h

theorem reads_sign {c : Char} {token : Token} (hsign : isSign c = true)
    (htoken : ofSymbol? c = some token) {rest : List Char} {tokens : List Token}
    (h : Reads rest tokens) : Reads (c :: rest) (token :: tokens) := by
  intro position
  simp only [isSign, Bool.and_eq_true, Bool.not_eq_true'] at hsign
  obtain ⟨⟨hblank, hnumber⟩, hname⟩ := hsign
  have hstart : isNameStart c = false := by
    rw [Bool.eq_false_iff]
    intro hstart
    rw [isNameChar_of_isNameStart hstart] at hname
    cases hname
  rw [readFrom, if_neg (by simp [hblank]), if_neg (by simp [hnumber]), if_neg (by simp [hstart]),
    htoken]
  simp only [h (position + c.utf8Size), ok_bind]
  rfl

/-- Whether neither a name nor a number goes on with a text. -/
def Ends (rest : List Char) : Prop :=
  ∀ c ∈ rest.head?, isNameChar c = false ∧ isNumberChar c = false

theorem ends_nil : Ends [] := by
  intro c hc
  cases hc

theorem ends_cons {c : Char} {rest : List Char} (hname : isNameChar c = false)
    (hnumber : isNumberChar c = false) : Ends (c :: rest) := by
  intro other hother
  obtain rfl : c = other := Option.some.inj hother
  exact ⟨hname, hnumber⟩

/-- A name is read up to the first character that is no part of a name. -/
theorem reads_name {name : String} (hname : isSmallName name = true) {rest : List Char}
    (hrest : Ends rest) {tokens : List Token} (h : Reads rest tokens) :
    Reads (name.toList ++ rest) (.identifier name :: tokens) := by
  intro position
  have hstop : ∀ c ∈ rest.head?, isNameChar c = false := fun c hc => (hrest c hc).1
  obtain ⟨c, cs, hcons, hc, hcs⟩ := isSmallName_iff.mp hname
  have hstart := isNameStart_of_isSmallStart hc
  obtain ⟨hblank, hnumber⟩ := class_of_isNameStart hstart
  have hchars : ∀ other ∈ cs, isNameChar other = true := fun other hother =>
    isNameChar_of_isSmallChar (hcs other hother)
  have hfold : Text.foldCase (String.ofList (c :: cs)) = name := by
    rw [← hcons, String.ofList_toList]
    exact foldCase_of_isSmallName hname
  rw [hcons, List.cons_append, readFrom, if_neg (by simp [hblank]), if_neg (by simp [hnumber]),
    if_pos hstart]
  simp only [takeWhile_append_stop hchars hstop, dropWhile_append_stop hchars hstop,
    h (position + Text.byteLength (c :: cs)), ok_bind, hfold]
  rfl

theorem isBlank_of_isNumberChar {c : Char} (h : isNumberChar c = true) :
    Text.isBlank c = false := by
  rcases isNumberChar_iff.mp h with h | rfl
  · have hlow : 0x30 ≤ c.toNat := (Char.isDigit_iff_toNat.mp h).1
    have hhigh : c.toNat ≤ 0x39 := (Char.isDigit_iff_toNat.mp h).2
    exact isBlank_of_printed (by omega) (by omega)
  · decide

theorem class_of_isDigit {c : Char} (h : c.isDigit = true) :
    Text.isBlank c = false ∧ isNumberChar c = true := by
  have hnumber : isNumberChar c = true := by
    rw [isNumberChar, h, Bool.true_or]
  exact ⟨isBlank_of_isNumberChar hnumber, hnumber⟩

theorem isBlank_of_isNameChar {c : Char} (h : isNameChar c = true) : Text.isBlank c = false := by
  simp only [isNameChar, Char.isAlphanum, Bool.or_eq_true] at h
  rcases h with (h | h) | h
  · exact (class_of_isNameStart (by simp [isNameStart, h])).1
  · exact (class_of_isDigit h).1
  · exact (class_of_isNameStart (by simp [isNameStart, h])).1

/-- A number is read up to the first character that is no part of a number. -/
theorem reads_digits {lexeme : List Char} {value : Float} (hne : lexeme ≠ [])
    (hlexeme : ∀ c ∈ lexeme, isNumberChar c = true) (hread : Decimal.readChars lexeme = .ok value)
    {rest : List Char} (hrest : Ends rest) {tokens : List Token} (h : Reads rest tokens) :
    Reads (lexeme ++ rest) (.number value :: tokens) := by
  intro position
  have hstop : ∀ c ∈ rest.head?, isNumberChar c = false := fun c hc => (hrest c hc).2
  obtain ⟨c, cs, rfl⟩ := List.exists_cons_of_ne_nil hne
  have hnumber := hlexeme c List.mem_cons_self
  have hchars : ∀ other ∈ cs, isNumberChar other = true := fun other hother =>
    hlexeme other (List.mem_cons_of_mem c hother)
  rw [List.cons_append, readFrom, if_neg (by simp [isBlank_of_isNumberChar hnumber]), if_pos hnumber]
  simp only [takeWhile_append_stop hchars hstop, dropWhile_append_stop hchars hstop, hread,
    h (position + Text.byteLength (c :: cs)), ok_bind]
  rfl

theorem reads_number {value : Float} (hvalue : isUnsigned value = true) {rest : List Char}
    (hrest : Ends rest) {tokens : List Token} (h : Reads rest tokens) :
    Reads (Decimal.plainLayout.chars value ++ rest) (.number value :: tokens) := by
  obtain ⟨c, cs, hcons, hc, hcs⟩ := Decimal.plainChars_eq_cons hvalue
  have hread := Decimal.readChars_plainChars hvalue
  rw [hcons] at hread ⊢
  refine reads_digits (List.cons_ne_nil c cs) (fun other hother => ?_) hread hrest h
  rcases List.mem_cons.mp hother with rfl | hother
  · exact (class_of_isDigit hc).2
  · exact isNumberChar_iff.mpr (hcs other hother)

theorem reads_lexeme {value : Float} {lexeme : List Char} (hvalue : isUnsigned value = true)
    (hlexeme : Decimal.plainLayout.chars value = lexeme) {rest : List Char}
    (hrest : Ends rest) {tokens : List Token} (h : Reads rest tokens) :
    Reads (lexeme ++ rest) (.number value :: tokens) := by
  rw [← hlexeme]
  exact reads_number hvalue hrest h

theorem readAll_of_reads {formula : String} {cs : List Char} {tokens : List Token}
    (h : Reads cs tokens) (hformula : formula.toList = cs) : readAll formula = .ok tokens := by
  rw [readAll, hformula]
  exact h 0

/-- A formula that is normal and is read as tokens has these tokens. -/
theorem tokens_of_reads {formula : String} {cs : List Char} {tokens : List Token}
    (h : Reads cs tokens) (hformula : formula.toList = cs)
    (hnormal : Formula.normalize formula = formula) (hne : formula ≠ "") :
    Formula.tokens formula = .ok tokens := by
  rw [Formula.tokens_eq_ok_iff, hnormal]
  exact ⟨hne, readAll_of_reads h hformula⟩

/-! ## The form of what is read -/

/-- Whether a token is one that can be written: a number that is finite is unsigned, and a name is
in small letters. -/
def isShaped : Token → Bool
  | .number value => !value.isFinite || isUnsigned value
  | .identifier name => isSmallName name
  | _ => true

theorem splitSign_of_isNumberChar {c : Char} (h : isNumberChar c = true) (cs : List Char) :
    Decimal.splitSign (c :: cs) = (false, c :: cs) := by
  apply Decimal.splitSign_of_ne
  · rintro rfl
    cases h
  · rintro rfl
    cases h

/-- No word starts as a number of a formula does. -/
theorem readWord_of_isNumberChar {c : Char} (h : isNumberChar c = true) (cs : List Char) :
    Decimal.readWord (c :: cs) = none := by
  rcases isNumberChar_iff.mp h with h | rfl
  · exact Decimal.readWord_of_isDigit h cs
  · simp [Decimal.readWord]

/-- A number of a formula has no sign and is no word. -/
theorem readChars_of_isNumberChar {c : Char} (h : isNumberChar c = true) (cs : List Char) :
    Decimal.readChars (c :: cs) =
      match Decimal.readUnsigned (c :: cs) with
      | some d => .ok d.toFloat
      | none => .error .invalid := by
  rw [Decimal.readChars, if_neg (List.cons_ne_nil c cs), splitSign_of_isNumberChar h]
  simp only [readWord_of_isNumberChar h]
  rfl

/-- A token in front of those read from the rest. -/
theorem forall_of_bind {p : Token → Prop} {token : Token} {others : Except FormulaError (List Token)}
    {tokens : List Token} (htoken : p token)
    (hothers : ∀ {rest}, others = .ok rest → ∀ other ∈ rest, p other)
    (h : (others >>= fun rest => pure (token :: rest)) = .ok tokens) :
    ∀ other ∈ tokens, p other := by
  obtain ⟨rest, hrest, h⟩ := bind_eq_ok_iff.mp h
  obtain rfl : token :: rest = tokens := Except.ok.inj h
  intro other hother
  rcases List.mem_cons.mp hother with rfl | hother
  · exact htoken
  · exact hothers hrest other hother

/-- What holds of the numbers, the names and the signs that can be read holds of all tokens. -/
theorem forall_of_readFrom {p : Token → Prop}
    (hnumbers : ∀ c cs value, isNumberChar c = true → Decimal.readChars (c :: cs) = .ok value →
      p (.number value))
    (hnames : ∀ c cs, isNameStart c = true → (∀ other ∈ cs, isNameChar other = true) →
      p (.identifier (Text.foldCase (String.ofList (c :: cs)))))
    (hsigns : ∀ c token, ofSymbol? c = some token → p token) (position : Nat) (cs : List Char)
    {tokens : List Token} (h : readFrom position cs = .ok tokens) : ∀ token ∈ tokens, p token := by
  fun_induction readFrom position cs generalizing tokens with
  | case1 =>
    obtain rfl : [] = tokens := Except.ok.inj h
    simp
  | case2 position c cs hblank ih => exact ih h
  | case3 => cases h
  | case4 position c cs hblank hnumber lexeme value hread =>
    rename_i ih
    exact forall_of_bind (hnumbers c _ value hnumber hread) ih h
  | case5 position c cs hblank hnumber hstart lexeme =>
    rename_i ih
    exact forall_of_bind (hnames c _ hstart (List.all_eq_true.mp List.all_takeWhile)) ih h
  | case6 position c cs hblank hnumber hstart token htoken ih =>
    exact forall_of_bind (hsigns c token htoken) ih h
  | case7 => cases h

theorem isShaped_of_ofSymbol? {c : Char} {token : Token} (h : ofSymbol? c = some token) :
    token.isShaped = true := by
  unfold ofSymbol? at h
  split at h
  · obtain rfl := Option.some.inj h
    rfl
  · obtain rfl := Option.some.inj h
    rfl
  · obtain rfl := Option.some.inj h
    rfl
  · obtain ⟨op, -, rfl⟩ := Option.map_eq_some_iff.mp h
    rfl

/-- Every token that is read has its form. -/
theorem isShaped_of_readFrom (position : Nat) (cs : List Char) {tokens : List Token}
    (h : readFrom position cs = .ok tokens) : ∀ token ∈ tokens, token.isShaped = true := by
  refine forall_of_readFrom ?_ ?_ ?_ position cs h
  · intro c cs value hnumber hread
    rw [isShaped, Bool.or_eq_true, Bool.not_eq_true']
    cases hfinite : value.isFinite with
    | false => exact .inl rfl
    | true =>
      exact .inr (Decimal.isUnsigned_of_readChars (splitSign_of_isNumberChar hnumber _) hread
        hfinite)
  · intro c cs hstart hchars
    exact isSmallName_foldCase hstart hchars
  · intro c token htoken
    exact isShaped_of_ofSymbol? htoken

end Token

end TradePlan
