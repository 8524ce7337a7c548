import TradePlan.Json.Reader
import TradePlan.Json.Writer
import TradePlan.Proofs.DecimalText

/-!
# JSON values and their texts

Reading the text of a value gives the value back:

    value.isWritable = true → Json.read? value.text = some value                    (read?_text)

A string is written with escapes, and each escape is read as the piece that its character stands
for.  A number ends where no character of numbers follows, and in a text a comma, a line end or
nothing follows.  Each value takes as many steps of the reading as it has characters, at most.
-/

namespace TradePlan.Json

/-! ## Strings -/

theorem hexValue?_hexDigit : ∀ n, n < 16 → hexValue? (hexDigit n) = some n := by
  decide

/-- Whether a character is written by the number of its code. -/
def isCoded (c : Char) : Bool :=
  decide (c.toNat < 0x20 ∧ c ∉ ['\x08', '\x0c', '\n', '\r', '\t'])

/-- What the escape of a character is read as. -/
def pieceOf (c : Char) : Piece := if isCoded c then .unit c.toNat else .char c

def withPiece (piece : Piece) (read : Option (List Piece × List Char)) :
    Option (List Piece × List Char) :=
  read.map fun (pieces, rest) => (piece :: pieces, rest)

theorem readPieces_pair {c d : Char} (hc : c ≠ 'u') (h : escaped? c = some d) (rest : List Char) :
    readPieces ('\\' :: c :: rest) = withPiece (.char d) (readPieces rest) := by
  rw [readPieces, h]
  · cases readPieces rest <;> rfl
  · exact fun _ _ _ _ _ heq _ => hc heq

theorem readPieces_coded {n : Nat} (h : n < 0x20) (rest : List Char) :
    readPieces ('\\' :: 'u' :: '0' :: '0' :: hexDigit (n / 16) :: hexDigit (n % 16) :: rest) =
      withPiece (.unit n) (readPieces rest) := by
  have hcode : unit? '0' '0' (hexDigit (n / 16)) (hexDigit (n % 16)) = some n := by
    rw [unit?, hexValue?_hexDigit _ (by omega), hexValue?_hexDigit _ (by omega)]
    show some (((0 * 16 + 0) * 16 + n / 16) * 16 + n % 16) = some n
    congr 1
    omega
  rw [readPieces, hcode]
  cases readPieces rest <;> rfl

theorem readPieces_char {c : Char} (hquote : c ≠ '"') (hslash : c ≠ '\\') (hlow : ¬ c.toNat < 0x20)
    (rest : List Char) : readPieces (c :: rest) = withPiece (.char c) (readPieces rest) := by
  rw [readPieces, if_neg (not_or.mpr ⟨hslash, hlow⟩)]
  · cases readPieces rest <;> rfl
  · exact hquote
  · exact fun _ _ _ _ _ heq _ => hslash heq
  · exact fun _ _ heq _ => hslash heq

/-- The escape of a character is read as its piece. -/
theorem readPieces_escape (c : Char) (rest : List Char) :
    readPieces (escape c ++ rest) = withPiece (pieceOf c) (readPieces rest) := by
  rw [escape]
  -- seven characters have an escape of two characters
  iterate 7
    split
    · next h =>
      subst h
      exact readPieces_pair (by decide) rfl rest
  next hquote hslash hback hfeed hline hreturn htab =>
  split
  · next hlow =>
    have hcoded : isCoded c = true :=
      decide_eq_true ⟨hlow, by simp [hback, hfeed, hline, hreturn, htab]⟩
    rw [pieceOf, if_pos hcoded]
    exact readPieces_coded hlow rest
  · next hlow =>
    have hcoded : ¬ isCoded c = true := fun h => hlow (of_decide_eq_true h).1
    rw [pieceOf, if_neg hcoded]
    exact readPieces_char hquote hslash hlow rest

theorem assemble_unit {code : Nat} (h : code < 0xD800) (rest : List Piece) :
    assemble (.unit code :: rest) = (assemble rest).map (Char.ofNat code :: ·) := by
  have hhigh : isHighSurrogate code = false := decide_eq_false (by omega)
  have hlow : isLowSurrogate code = false := decide_eq_false (by omega)
  cases rest with
  | nil => simp [assemble, hhigh, hlow]
  | cons piece rest =>
    cases piece with
    | char c => simp [assemble, hhigh, hlow]
    | unit low => simp [assemble, hhigh, hlow]

theorem assemble_pieces (cs : List Char) : assemble (cs.map pieceOf) = some cs := by
  induction cs with
  | nil => rfl
  | cons c cs ih =>
    rw [List.map_cons, pieceOf]
    split
    · next hcoded =>
      have hlow : c.toNat < 0x20 := (of_decide_eq_true hcoded).1
      rw [assemble_unit (by omega), ih, Option.map_some, Char.ofNat_toNat]
    · rw [assemble, ih, Option.map_some]

theorem readPieces_quoted (cs rest : List Char) :
    readPieces (cs.flatMap escape ++ '"' :: rest) = some (cs.map pieceOf, rest) := by
  induction cs with
  | nil => rfl
  | cons c cs ih =>
    rw [List.flatMap_cons, List.append_assoc, readPieces_escape, ih]
    rfl

/-- A quoted string is read as its text. -/
theorem readString_quoted (text : String) (rest : List Char) :
    readString (text.toList.flatMap escape ++ '"' :: rest) = some (some text, rest) := by
  rw [readString, readPieces_quoted]
  simp only [Option.bind_eq_bind, Option.bind_some, assemble_pieces, Option.map_some,
    String.ofList_toList]
  rfl

/-! ## Numbers -/

/-- What is left of a text after characters of numbers. -/
def LeavesAfterNumber (cs rest : List Char) : Prop :=
  ∃ lexeme, cs = lexeme ++ rest ∧ ∀ c ∈ lexeme, isNumberChar c = true

theorem leavesAfterNumber_refl (cs : List Char) : LeavesAfterNumber cs cs := ⟨[], rfl, by simp⟩

theorem LeavesAfterNumber.trans {cs between rest : List Char} (h : LeavesAfterNumber cs between)
    (h' : LeavesAfterNumber between rest) : LeavesAfterNumber cs rest := by
  obtain ⟨lexeme, rfl, hlexeme⟩ := h
  obtain ⟨others, rfl, hothers⟩ := h'
  refine ⟨lexeme ++ others, (List.append_assoc _ _ _).symm, fun c hc => ?_⟩
  rcases List.mem_append.mp hc with hc | hc
  · exact hlexeme c hc
  · exact hothers c hc

theorem leavesAfterNumber_cons {c : Char} (hc : isNumberChar c = true) {cs rest : List Char}
    (h : LeavesAfterNumber cs rest) : LeavesAfterNumber (c :: cs) rest :=
  LeavesAfterNumber.trans ⟨[c], rfl, by simpa using hc⟩ h

theorem isNumberChar_of_isDigit {c : Char} (h : c.isDigit = true) : isNumberChar c = true := by
  simp [isNumberChar, h]

theorem leavesAfterNumber_spanDigits (cs : List Char) :
    LeavesAfterNumber cs (Decimal.spanDigits cs).2 :=
  ⟨cs.takeWhile Char.isDigit, List.takeWhile_append_dropWhile.symm, fun _ hc =>
    isNumberChar_of_isDigit (List.all_eq_true.mp List.all_takeWhile _ hc)⟩

theorem leavesAfterNumber_splitSign (cs : List Char) :
    LeavesAfterNumber cs (Decimal.splitSign cs).2 := by
  rw [Decimal.splitSign.eq_def]
  split
  · exact leavesAfterNumber_cons (by decide) (leavesAfterNumber_refl _)
  · exact leavesAfterNumber_cons (by decide) (leavesAfterNumber_refl _)
  · exact leavesAfterNumber_refl _

theorem leavesAfterNumber_readWhole {cs digits rest : List Char}
    (h : readWhole cs = some (digits, rest)) : LeavesAfterNumber cs rest := by
  have hspan := leavesAfterNumber_spanDigits cs
  rw [readWhole] at h
  split at h
  · cases h
  · cases h
  · next heq =>
    obtain ⟨rfl, rfl⟩ := Prod.mk.inj (Option.some.inj h)
    rwa [heq] at hspan

theorem leavesAfterNumber_readFraction {cs digits rest : List Char}
    (h : readFraction cs = some (digits, rest)) : LeavesAfterNumber cs rest := by
  rw [readFraction.eq_def] at h
  split at h
  · next cs =>
    have hspan := leavesAfterNumber_spanDigits cs
    split at h
    · cases h
    · next heq =>
      obtain ⟨rfl, rfl⟩ := Prod.mk.inj (Option.some.inj h)
      rw [heq] at hspan
      exact leavesAfterNumber_cons (by decide) hspan
  · obtain ⟨rfl, rfl⟩ := Prod.mk.inj (Option.some.inj h)
    exact leavesAfterNumber_refl _

theorem leavesAfterNumber_readPower {cs rest : List Char} {power : Option (Bool × List Char)}
    (h : readPower cs = some (power, rest)) : LeavesAfterNumber cs rest := by
  rw [readPower.eq_def] at h
  split at h
  · next c cs =>
    have hsign := leavesAfterNumber_splitSign cs
    have hspan := leavesAfterNumber_spanDigits (Decimal.splitSign cs).2
    split at h
    · next hc =>
      have hnumber : isNumberChar c = true := by
        rcases hc with rfl | rfl <;> decide
      simp only at h
      split at h
      · cases h
      · next heq =>
        obtain ⟨-, rfl⟩ := Prod.mk.inj (Option.some.inj h)
        rw [heq] at hspan
        exact leavesAfterNumber_cons hnumber (hsign.trans hspan)
    · obtain ⟨-, rfl⟩ := Prod.mk.inj (Option.some.inj h)
      exact leavesAfterNumber_refl _
  · obtain ⟨-, rfl⟩ := Prod.mk.inj (Option.some.inj h)
    exact leavesAfterNumber_refl _

theorem leavesAfterNumber_readNumber {cs rest : List Char} {parts : NumberParts}
    (h : readNumber cs = some (parts, rest)) : LeavesAfterNumber cs rest := by
  have hminus : ∃ digits, LeavesAfterNumber cs digits ∧ ∃ whole after fraction later power,
      readWhole digits = some (whole, after) ∧ readFraction after = some (fraction, later) ∧
      readPower later = some (power, rest) := by
    simp only [readNumber, Option.bind_eq_bind, Option.bind_eq_some_iff] at h
    obtain ⟨⟨whole, after⟩, hwhole, ⟨fraction, later⟩, hfraction, ⟨power, last⟩, hpower, h⟩ := h
    obtain ⟨-, rfl⟩ := Prod.mk.inj (Option.some.inj h)
    split at hwhole
    · exact ⟨_, leavesAfterNumber_cons (by decide) (leavesAfterNumber_refl _), whole, after, fraction,
        later, power, hwhole, hfraction, hpower⟩
    · exact ⟨_, leavesAfterNumber_refl _, whole, after, fraction, later, power, hwhole, hfraction,
        hpower⟩
  obtain ⟨digits, hsign, whole, after, fraction, later, power, hwhole, hfraction, hpower⟩ := hminus
  exact hsign.trans ((leavesAfterNumber_readWhole hwhole).trans
    ((leavesAfterNumber_readFraction hfraction).trans (leavesAfterNumber_readPower hpower)))

/-- A number that is read to its end is made of characters of numbers. -/
theorem isNumberChar_of_readNumber {literal : List Char} {parts : NumberParts}
    (h : readNumber literal = some (parts, [])) :
    literal ≠ [] ∧ ∀ c ∈ literal, isNumberChar c = true := by
  obtain ⟨lexeme, rfl, hlexeme⟩ := leavesAfterNumber_readNumber h
  rw [List.append_nil] at h ⊢
  refine ⟨?_, hlexeme⟩
  rintro rfl
  cases h

/-! ## Values that can be written -/

mutual

/-- Whether the text of a value is one of its own: every string has a text, and the numbers are
written as numbers are. -/
def isWritable : Json → Bool
  | .null => true
  | .bool _ => true
  | .number literal => ((readNumber literal).map Prod.snd) == some []
  | .string text => text.isSome
  | .array items => areWritable items
  | .object members => haveWritable members

def areWritable : List Json → Bool
  | [] => true
  | item :: items => item.isWritable && areWritable items

def haveWritable : List (Option String × Json) → Bool
  | [] => true
  | (key, value) :: members => key.isSome && value.isWritable && haveWritable members

end

theorem areWritable_iff {items : List Json} :
    areWritable items = true ↔ ∀ item ∈ items, item.isWritable = true := by
  induction items with
  | nil => simp [areWritable]
  | cons item items ih => simp [areWritable, ih]

theorem exists_readNumber {literal : List Char} (h : isWritable (.number literal) = true) :
    ∃ parts, readNumber literal = some (parts, []) := by
  rw [isWritable, beq_iff_eq, Option.map_eq_some_iff] at h
  obtain ⟨⟨parts, rest⟩, hread, rfl⟩ := h
  exact ⟨parts, hread⟩

/-! ## Blanks -/

theorem skipSpace_skipSpace (cs : List Char) : skipSpace (skipSpace cs) = skipSpace cs := by
  rw [skipSpace, skipSpace, List.dropWhile_idempotent]

theorem skipSpace_newLine (level : Nat) (cs : List Char) :
    skipSpace (newLine level ++ cs) = skipSpace cs := by
  have hblank : ∀ c ∈ newLine level, isSpace c = true := by
    intro c hc
    rcases List.mem_cons.mp hc with rfl | hc
    · decide
    · rw [List.eq_of_mem_replicate hc]
      decide
  rw [skipSpace, skipSpace, List.dropWhile_append_of_pos hblank]

theorem skipSpace_of_isSpace {c : Char} (hc : isSpace c = false) (cs : List Char) :
    skipSpace (c :: cs) = c :: cs := by
  rw [skipSpace, List.dropWhile_cons_of_neg (by simp [hc])]

theorem isSpace_of_isNumberChar {c : Char} (h : isNumberChar c = true) : isSpace c = false := by
  rw [Bool.eq_false_iff]
  intro hspace
  simp only [isSpace, Bool.or_eq_true, beq_iff_eq] at hspace
  rcases hspace with ((rfl | rfl) | rfl) | rfl <;> cases h

/-- No value starts with a blank or a closing bracket. -/
theorem write_eq_cons {value : Json} (h : value.isWritable = true) (level : Nat) :
    ∃ c cs, write level value = c :: cs ∧ isSpace c = false ∧ c ≠ ']' := by
  cases value with
  | null => exact ⟨'n', _, rfl, by decide, by decide⟩
  | bool value =>
    cases value with
    | true => exact ⟨'t', _, rfl, by decide, by decide⟩
    | false => exact ⟨'f', _, rfl, by decide, by decide⟩
  | number literal =>
    obtain ⟨parts, hread⟩ := exists_readNumber h
    obtain ⟨hne, hchars⟩ := isNumberChar_of_readNumber hread
    obtain ⟨c, cs, rfl⟩ := List.exists_cons_of_ne_nil hne
    have hc := hchars c List.mem_cons_self
    refine ⟨c, cs, rfl, ?_, ?_⟩
    · exact isSpace_of_isNumberChar hc
    · rintro rfl
      cases hc
  | string text => exact ⟨'"', _, rfl, by decide, by decide⟩
  | array items =>
    rw [write]
    cases items with
    | nil => exact ⟨'[', _, rfl, by decide, by decide⟩
    | cons item items => exact ⟨'[', _, rfl, by decide, by decide⟩
  | object members =>
    rw [write]
    cases members with
    | nil => exact ⟨'\x7b', _, rfl, by decide, by decide⟩
    | cons member members => exact ⟨'\x7b', _, rfl, by decide, by decide⟩

/-! ## Values of one token -/

theorem readWord_append (word : String) (value : Json) (rest : List Char) :
    readWord word value (word.toList ++ rest) = some (value, rest) := by
  rw [readWord, if_pos (List.isPrefixOf_iff_prefix.mpr (List.prefix_append _ _)),
    ← String.length_toList, List.drop_left]

theorem readScalar_number {literal : List Char} (h : isWritable (.number literal) = true)
    {rest : List Char} (hrest : ∀ c ∈ rest.head?, isNumberChar c = false) :
    readScalar (literal ++ rest) = some (.number literal, rest) := by
  obtain ⟨parts, hread⟩ := exists_readNumber h
  obtain ⟨hne, hchars⟩ := isNumberChar_of_readNumber hread
  obtain ⟨c, cs, rfl⟩ := List.exists_cons_of_ne_nil hne
  have hc := hchars c List.mem_cons_self
  have htake := takeWhile_append_stop hchars hrest
  have hdrop := dropWhile_append_stop hchars hrest
  rw [List.cons_append] at htake hdrop ⊢
  rw [readScalar]
  · simp only [htake, hdrop, hread]
  · rintro _ ⟨⟩
    cases hc
  · rintro _ ⟨⟩
    cases hc
  · rintro _ ⟨⟩
    cases hc
  · rintro _ ⟨⟩
    cases hc

/-! ## Values in front of what follows -/

/-- Nothing is left of a number where one of these texts starts. -/
def EndsNumber (rest : List Char) : Prop := ∀ c ∈ rest.head?, isNumberChar c = false

theorem endsNumber_cons {c : Char} (hc : isNumberChar c = false) (rest : List Char) :
    EndsNumber (c :: rest) := by
  intro other hother
  obtain rfl : c = other := Option.some.inj hother
  exact hc

theorem readValue_skipSpace (depth : Nat) (cs : List Char) :
    readValue depth (skipSpace cs) = readValue depth cs := by
  cases depth with
  | zero => rfl
  | succ depth => rw [readValue, readValue, skipSpace_skipSpace]

theorem readValue_newLine (depth level : Nat) (cs : List Char) :
    readValue depth (newLine level ++ cs) = readValue depth cs := by
  rw [← readValue_skipSpace, skipSpace_newLine, readValue_skipSpace]

theorem readItems_skipSpace (depth : Nat) (cs : List Char) :
    readItems depth (skipSpace cs) = readItems depth cs := by
  cases depth with
  | zero => rfl
  | succ depth => rw [readItems, readItems, readValue_skipSpace]

theorem readMembers_skipSpace (depth : Nat) (cs : List Char) :
    readMembers depth (skipSpace cs) = readMembers depth cs := by
  cases depth with
  | zero => rfl
  | succ depth => rw [readMembers, readMembers, readKey, readKey, skipSpace_skipSpace]

/-- With some depth, every text of a value is read as the value. -/
def ReadsValues (depth : Nat) : Prop :=
  ∀ (value : Json) (level : Nat) (rest : List Char), value.isWritable = true → EndsNumber rest →
    2 * (write level value).length ≤ depth →
    readValue depth (write level value ++ rest) = some (value, rest)

/-- With some depth, the lines of an array are read as its items. -/
def ReadsItems (depth : Nat) : Prop :=
  ∀ (items : List Json) (level indent : Nat) (rest : List Char), items ≠ [] →
    areWritable items = true → 2 * (joinLines level (writeItems level items)).length ≤ depth →
    readItems depth (joinLines level (writeItems level items) ++ (newLine indent ++ ']' :: rest)) =
      some (items, rest)

/-- With some depth, the lines of an object are read as its members. -/
def ReadsMembers (depth : Nat) : Prop :=
  ∀ (members : List (Option String × Json)) (level indent : Nat) (rest : List Char), members ≠ [] →
    haveWritable members = true → 2 * (joinLines level (writeMembers level members)).length ≤ depth →
    readMembers depth
      (joinLines level (writeMembers level members) ++ (newLine indent ++ '\x7d' :: rest)) =
      some (members, rest)

theorem endsNumber_newLine (level : Nat) (rest : List Char) :
    EndsNumber (newLine level ++ rest) := endsNumber_cons (by decide) _

theorem readsItems_succ {depth : Nat} (hvalues : ReadsValues depth) (hitems : ReadsItems depth) :
    ReadsItems (depth + 1) := by
  intro items level indent rest hne hwritable hdepth
  cases items with
  | nil => exact absurd rfl hne
  | cons item items =>
    rw [areWritable, Bool.and_eq_true] at hwritable
    cases items with
    | nil =>
      rw [writeItems, writeItems, joinLines, List.length_append] at hdepth
      have hitem := hvalues item level (newLine indent ++ ']' :: rest) hwritable.1
        (endsNumber_newLine _ _) (by simp only [newLine, List.length_cons] at hdepth; omega)
      rw [writeItems, writeItems, joinLines, List.append_assoc, readItems, readValue_newLine, hitem]
      simp only [Option.bind_eq_bind, Option.bind_some, skipSpace_newLine,
        skipSpace_of_isSpace (show isSpace ']' = false by decide)]
      rfl
    | cons next items =>
      have hjoin : joinLines level (writeItems level (item :: next :: items)) =
          newLine level ++ write level item ++
            ',' :: joinLines level (writeItems level (next :: items)) := rfl
      rw [hjoin, List.length_append, List.length_append, List.length_cons] at hdepth
      have hitem := hvalues item level
        (',' :: (joinLines level (writeItems level (next :: items)) ++ (newLine indent ++ ']' :: rest)))
        hwritable.1 (endsNumber_cons (by decide) _) (by omega)
      have hothers := hitems (next :: items) level indent rest (by simp) hwritable.2 (by omega)
      rw [hjoin, List.append_assoc, List.append_assoc, List.cons_append, readItems,
        readValue_newLine, hitem]
      simp only [Option.bind_eq_bind, Option.bind_some,
        skipSpace_of_isSpace (show isSpace ',' = false by decide), hothers]
      rfl

/-- The key of a member is read up to its colon. -/
theorem readKey_writeMember (level : Nat) (key : String) (value : Json) (rest : List Char) :
    readKey (newLine level ++ (writeMember level (some key, value) ++ rest)) =
      some (some key, ' ' :: (write level value ++ rest)) := by
  have hmember : writeMember level (some key, value) ++ rest =
      '"' :: (key.toList.flatMap escape ++ '"' :: ':' :: ' ' :: (write level value ++ rest)) := by
    simp [writeMember, writeString, quoted]
  rw [readKey, skipSpace_newLine, hmember,
    skipSpace_of_isSpace (show isSpace '"' = false by decide)]
  simp only [readString_quoted, Option.bind_eq_bind, Option.bind_some,
    skipSpace_of_isSpace (show isSpace ':' = false by decide)]
  rfl

theorem readValue_space (depth : Nat) (cs : List Char) :
    readValue depth (' ' :: cs) = readValue depth cs := by
  have hskip : skipSpace (' ' :: cs) = skipSpace cs := List.dropWhile_cons_of_pos (by decide)
  rw [← readValue_skipSpace, hskip, readValue_skipSpace]

theorem readsMembers_succ {depth : Nat} (hvalues : ReadsValues depth)
    (hmembers : ReadsMembers depth) : ReadsMembers (depth + 1) := by
  intro members level indent rest hne hwritable hdepth
  cases members with
  | nil => exact absurd rfl hne
  | cons member members =>
    obtain ⟨key, value⟩ := member
    rw [haveWritable, Bool.and_eq_true, Bool.and_eq_true, Option.isSome_iff_exists] at hwritable
    obtain ⟨⟨⟨key, rfl⟩, hvalue⟩, hothers⟩ := hwritable
    have hlength : (write level value).length ≤ (writeMember level (some key, value)).length := by
      rw [writeMember, List.length_append, List.length_cons, List.length_cons]
      omega
    cases members with
    | nil =>
      rw [writeMembers, writeMembers, joinLines, List.length_append] at hdepth
      have hread := hvalues value level (newLine indent ++ '\x7d' :: rest) hvalue
        (endsNumber_newLine _ _) (by simp only [newLine, List.length_cons] at hdepth; omega)
      rw [writeMembers, writeMembers, joinLines, List.append_assoc, readMembers, readKey_writeMember]
      simp only [Option.bind_eq_bind, Option.bind_some, readValue_space, hread, skipSpace_newLine,
        skipSpace_of_isSpace (show isSpace '\x7d' = false by decide)]
      rfl
    | cons next members =>
      have hjoin : joinLines level (writeMembers level ((some key, value) :: next :: members)) =
          newLine level ++ writeMember level (some key, value) ++
            ',' :: joinLines level (writeMembers level (next :: members)) := rfl
      rw [hjoin, List.length_append, List.length_append, List.length_cons] at hdepth
      have hread := hvalues value level
        (',' :: (joinLines level (writeMembers level (next :: members)) ++
          (newLine indent ++ '\x7d' :: rest)))
        hvalue (endsNumber_cons (by decide) _) (by omega)
      have hrest := hmembers (next :: members) level indent rest (by simp) hothers (by omega)
      rw [hjoin, List.append_assoc, List.append_assoc, List.cons_append, readMembers,
        readKey_writeMember]
      simp only [Option.bind_eq_bind, Option.bind_some, readValue_space, hread,
        skipSpace_of_isSpace (show isSpace ',' = false by decide), hrest]
      rfl

/-- A text between brackets that is not empty starts with an item. -/
theorem skipSpace_joinLines {items : List Json} (hne : items ≠ []) (h : areWritable items = true)
    (level : Nat) (rest : List Char) :
    ∃ c cs, skipSpace (joinLines level (writeItems level items) ++ rest) = c :: cs ∧ c ≠ ']' := by
  cases items with
  | nil => exact absurd rfl hne
  | cons item items =>
    rw [areWritable, Bool.and_eq_true] at h
    obtain ⟨c, cs, hitem, hspace, hc⟩ := write_eq_cons h.1 level
    have hjoin : ∃ others, joinLines level (writeItems level (item :: items)) =
        newLine level ++ (write level item ++ others) := by
      cases items with
      | nil => exact ⟨[], by rw [List.append_nil]; rfl⟩
      | cons next items => exact ⟨_, List.append_assoc _ _ _⟩
    obtain ⟨others, hjoin⟩ := hjoin
    refine ⟨c, cs ++ others ++ rest, ?_, hc⟩
    rw [hjoin, hitem, List.append_assoc, skipSpace_newLine, List.cons_append, List.cons_append,
      skipSpace_of_isSpace hspace]

theorem skipSpace_joinMembers {members : List (Option String × Json)} (hne : members ≠ [])
    (level : Nat) (rest : List Char) :
    ∃ cs, skipSpace (joinLines level (writeMembers level members) ++ rest) = '"' :: cs := by
  cases members with
  | nil => exact absurd rfl hne
  | cons member members =>
    have hjoin : ∃ others, joinLines level (writeMembers level (member :: members)) =
        newLine level ++ (writeMember level member ++ others) := by
      cases members with
      | nil => exact ⟨[], by rw [List.append_nil]; rfl⟩
      | cons next members => exact ⟨_, List.append_assoc _ _ _⟩
    obtain ⟨others, hjoin⟩ := hjoin
    obtain ⟨key, value⟩ := member
    rw [hjoin, List.append_assoc, skipSpace_newLine]
    exact ⟨_, skipSpace_of_isSpace (show isSpace '"' = false by decide) _⟩

theorem readValue_array {depth : Nat} {cs : List Char} {c : Char} {others : List Char}
    (h : skipSpace cs = c :: others) (hc : c ≠ ']') {items : List Json} {rest : List Char}
    (hitems : readItems depth cs = some (items, rest)) :
    readValue (depth + 1) ('[' :: cs) = some (.array items, rest) := by
  rw [← readItems_skipSpace, h] at hitems
  rw [readValue, skipSpace_of_isSpace (by decide)]
  simp only [h]
  split
  · next heq => exact absurd (List.cons.inj heq).1 hc
  · rw [hitems]
    rfl

theorem readValue_object {depth : Nat} {cs others : List Char} (h : skipSpace cs = '"' :: others)
    {members : List (Option String × Json)} {rest : List Char}
    (hmembers : readMembers depth cs = some (members, rest)) :
    readValue (depth + 1) ('\x7b' :: cs) = some (.object members, rest) := by
  rw [← readMembers_skipSpace, h] at hmembers
  rw [readValue, skipSpace_of_isSpace (by decide)]
  simp only [h]
  split
  · next heq => exact absurd (List.cons.inj heq).1 (by decide)
  · rw [hmembers]
    rfl

theorem write_array {items : List Json} (hne : items ≠ []) (level : Nat) :
    write level (.array items) =
      '[' :: (joinLines (level + 1) (writeItems (level + 1) items) ++ (newLine level ++ [']'])) := by
  obtain ⟨item, items, rfl⟩ := List.exists_cons_of_ne_nil hne
  rw [← List.append_assoc]
  rfl

theorem write_object {members : List (Option String × Json)} (hne : members ≠ []) (level : Nat) :
    write level (.object members) =
      '\x7b' :: (joinLines (level + 1) (writeMembers (level + 1) members) ++
        (newLine level ++ ['\x7d'])) := by
  obtain ⟨member, members, rfl⟩ := List.exists_cons_of_ne_nil hne
  rw [← List.append_assoc]
  rfl

theorem readValue_scalar {c : Char} (hspace : isSpace c = false) (hbracket : c ≠ '[')
    (hbrace : c ≠ '\x7b') (depth : Nat) (cs : List Char) :
    readValue (depth + 1) (c :: cs) = readScalar (c :: cs) := by
  rw [readValue, skipSpace_of_isSpace hspace]
  split
  · next heq => exact absurd (List.cons.inj heq).1 hbracket
  · next heq => exact absurd (List.cons.inj heq).1 hbrace
  · rfl

theorem readsValues_succ {depth : Nat} (hitems : ReadsItems depth) (hmembers : ReadsMembers depth) :
    ReadsValues (depth + 1) := by
  intro value level rest hwritable hrest hdepth
  cases value with
  | null => exact readWord_append "null" .null rest
  | bool value =>
    cases value with
    | true => exact readWord_append "true" (.bool true) rest
    | false => exact readWord_append "false" (.bool false) rest
  | number literal =>
    have hscalar := readScalar_number hwritable hrest
    obtain ⟨parts, hread⟩ := exists_readNumber hwritable
    obtain ⟨hne, hchars⟩ := isNumberChar_of_readNumber hread
    obtain ⟨c, cs, rfl⟩ := List.exists_cons_of_ne_nil hne
    have hc := hchars c List.mem_cons_self
    rw [List.cons_append] at hscalar
    rw [write, List.cons_append, readValue_scalar (isSpace_of_isNumberChar hc), hscalar]
    · rintro rfl
      cases hc
    · rintro rfl
      cases hc
  | string text =>
    obtain ⟨text, rfl⟩ := Option.isSome_iff_exists.mp hwritable
    have hwrite : write level (.string (some text)) ++ rest =
        '"' :: (text.toList.flatMap escape ++ '"' :: rest) := by
      simp [write, writeString, quoted]
    rw [hwrite, readValue_scalar (by decide) (by decide) (by decide), readScalar, readString_quoted]
    rfl
  | array items =>
    by_cases hne : items = []
    · subst hne
      rfl
    · rw [write_array hne] at hdepth ⊢
      obtain ⟨c, cs, hskip, hc⟩ :=
        skipSpace_joinLines hne hwritable (level + 1) (newLine level ++ ']' :: rest)
      have hread := hitems items (level + 1) level rest hne hwritable
        (by simp only [List.length_cons, List.length_append] at hdepth; omega)
      rw [List.cons_append, List.append_assoc, List.append_assoc, List.singleton_append]
      exact readValue_array hskip hc hread
  | object members =>
    by_cases hne : members = []
    · subst hne
      rfl
    · rw [write_object hne] at hdepth ⊢
      obtain ⟨cs, hskip⟩ := skipSpace_joinMembers hne (level + 1) (newLine level ++ '\x7d' :: rest)
      have hread := hmembers members (level + 1) level rest hne hwritable
        (by simp only [List.length_cons, List.length_append] at hdepth; omega)
      rw [List.cons_append, List.append_assoc, List.append_assoc, List.singleton_append]
      exact readValue_object hskip hread

theorem length_write_pos {value : Json} (h : value.isWritable = true) (level : Nat) :
    0 < (write level value).length := by
  obtain ⟨c, cs, hwrite, -, -⟩ := write_eq_cons h level
  rw [hwrite]
  exact Nat.zero_lt_succ _

theorem length_joinLines_pos (level : Nat) (piece : List Char) (pieces : List (List Char)) :
    0 < (joinLines level (piece :: pieces)).length := by
  cases pieces <;> exact Nat.zero_lt_succ _

/-- With any depth, values, items and members are read that have no more characters than half of
it. -/
theorem reads_of_depth (depth : Nat) :
    ReadsValues depth ∧ ReadsItems depth ∧ ReadsMembers depth := by
  induction depth with
  | zero =>
    refine ⟨?_, ?_, ?_⟩
    · intro value level rest hwritable hrest hdepth
      have hpos := length_write_pos hwritable level
      omega
    · intro items level indent rest hne hwritable hdepth
      obtain ⟨item, items, rfl⟩ := List.exists_cons_of_ne_nil hne
      have hpos := length_joinLines_pos level (write level item) (writeItems level items)
      rw [writeItems] at hdepth
      omega
    · intro members level indent rest hne hwritable hdepth
      obtain ⟨member, members, rfl⟩ := List.exists_cons_of_ne_nil hne
      have hpos := length_joinLines_pos level (writeMember level member) (writeMembers level members)
      rw [writeMembers] at hdepth
      omega
  | succ depth ih =>
    obtain ⟨hvalues, hitems, hmembers⟩ := ih
    exact ⟨readsValues_succ hitems hmembers, readsItems_succ hvalues hitems,
      readsMembers_succ hvalues hmembers⟩

/-! ## Top theorem -/

/-- **The text of a value is read as the value.** -/
theorem read?_text {value : Json} (h : value.isWritable = true) : read? value.text = some value := by
  have hread := (reads_of_depth (2 * (write 0 value).length + 2)).1 value 0 [] h (by simp [EndsNumber])
    (by omega)
  rw [List.append_nil] at hread
  rw [read?, text]
  simp only [String.toList_ofList, hread, Option.bind_eq_bind, Option.bind_some]
  rfl

end TradePlan.Json
