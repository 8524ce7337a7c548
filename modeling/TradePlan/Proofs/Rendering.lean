import TradePlan.Formula.Evaluate
import TradePlan.Proofs.Grammar
import TradePlan.Proofs.Leaves
import TradePlan.Proofs.Lexing

/-!
# Expressions and their texts

Reading the text of an expression gives the expression back:

    e.isReadable = true → Formula.parse e.text = .ok e

The text is read as the tokens of the expression, which derive it in the grammar; and it has no
blanks that the normalisation would take away.  What is read from a formula with finite numbers is
itself readable, so a formula can be replaced by the text of its tree.
-/

namespace TradePlan

namespace Expr

/-! ## Readable expressions -/

mutual

/-- Whether an expression is made of what formulas can write: unsigned numbers, names in small
letters and functions that there are. -/
def isReadable : Expr → Bool
  | .number value => isUnsigned value
  | .var name => Token.isSmallName name
  | .call function args => Builtin.isName function && isReadableAll args
  | .binary _ left right => left.isReadable && right.isReadable

def isReadableAll : List Expr → Bool
  | [] => true
  | arg :: args => arg.isReadable && isReadableAll args

end

theorem isReadableAll_iff {args : List Expr} :
    isReadableAll args = true ↔ ∀ arg ∈ args, arg.isReadable = true := by
  induction args with
  | nil => simp [isReadableAll]
  | cons arg args ih => simp [isReadableAll, ih]

mutual

/-- The tokens of an expression, with parentheses around every operation. -/
def tokens : Expr → List Token
  | .number value => [.number value]
  | .var name => [.identifier name]
  | .call function args =>
    .identifier function :: .leftParen :: (tokensAll args ++ [.rightParen])
  | .binary op left right =>
    .leftParen :: ((left.tokens ++ .operator op :: right.tokens) ++ [.rightParen])

def tokensAll : List Expr → List Token
  | [] => []
  | [arg] => arg.tokens
  | arg :: args => arg.tokens ++ .comma :: tokensAll args

end

/-! ## Their tokens derive them -/

theorem derives_of_le {level top : Nat} {tokens : List Token} {e : Expr}
    (h : Derives top tokens e) (hle : level ≤ top) : Derives level tokens e := by
  obtain ⟨steps, rfl⟩ := Nat.exists_eq_add_of_le hle
  clear hle
  induction steps with
  | zero => exact h
  | succ steps ih => exact ih (.tighter h)

theorem derivesArguments_tokensAll {args : List Expr} (hne : args ≠ [])
    (h : ∀ arg ∈ args, Derives 1 arg.tokens arg) : DerivesArguments (tokensAll args) args := by
  induction args with
  | nil => exact absurd rfl hne
  | cons arg args ih =>
    have harg := h arg List.mem_cons_self
    cases args with
    | nil => exact .last harg
    | cons next args =>
      exact .more harg (ih (by simp) fun other hother => h other (List.mem_cons_of_mem _ hother))

theorem precedence_le (op : Operator) : op.precedence + 1 ≤ 4 := by
  cases op <;> decide

theorem derives_tokens (e : Expr) (h : e.isReadable = true) : Derives 4 e.tokens e := by
  induction e with
  | number value => exact .number value
  | var name => exact .var name
  | call function args ih =>
    rw [isReadable, Bool.and_eq_true, isReadableAll_iff] at h
    by_cases hne : args = []
    · subst hne
      exact .callEmpty (mem_functionNames_iff.mpr h.1)
    · refine .call (mem_functionNames_iff.mpr h.1) (derivesArguments_tokensAll hne fun arg harg => ?_)
      exact derives_of_le (ih arg harg (h.2 arg harg)) (by decide)
  | binary op left right ihleft ihright =>
    rw [isReadable, Bool.and_eq_true] at h
    have hle := precedence_le op
    have hsum : 1 ≤ op.precedence := by
      cases op <;> decide
    have hbinary : Derives op.precedence (left.tokens ++ .operator op :: right.tokens)
        (.binary op left right) :=
      .binary (mem_operatorsAt_iff.mpr rfl) (derives_of_le (ihleft h.1) (by omega))
        (derives_of_le (ihright h.2) hle)
    exact .paren (derives_of_le hbinary hsum)

/-! ## Their texts are read as their tokens -/

/-- The names of functions have the form of names. -/
theorem isSmallName_of_isName {function : String} (h : Builtin.isName function = true) :
    Token.isSmallName function = true := by
  rw [Builtin.isName, Option.isSome_iff_exists] at h
  obtain ⟨f, hf⟩ := h
  obtain rfl : f.name = function := eq_of_beq (List.find?_some hf :)
  cases f <;> decide

theorem isSign_symbol (op : Operator) : Token.isSign op.symbol = true := by
  cases op <;> decide

theorem ofSymbol?_symbol (op : Operator) : Token.ofSymbol? op.symbol = some (.operator op) := by
  cases op <;> rfl

/-- The text of the expression is read as its tokens, in front of what neither a name nor a number
goes on with. -/
def ReadsBack (e : Expr) : Prop :=
  ∀ (rest : List Char) (others : List Token), Token.Ends rest → Token.Reads rest others →
    Token.Reads (e.write rest) (e.tokens ++ others)

open Token

theorem reads_writeAll {args : List Expr} (h : ∀ arg ∈ args, ReadsBack arg) {rest : List Char}
    {others : List Token} (hrest : Ends rest) (hreads : Reads rest others) :
    Reads (writeAll args rest) (tokensAll args ++ others) := by
  induction args with
  | nil => exact hreads
  | cons arg args ih =>
    have harg := h arg List.mem_cons_self
    cases args with
    | nil => exact harg rest others hrest hreads
    | cons next args =>
      have hnext := ih fun other hother => h other (List.mem_cons_of_mem _ hother)
      rw [tokensAll, List.append_assoc]
      · exact harg _ _ (ends_cons (by decide) (by decide))
          (reads_sign (by decide) rfl (reads_space hnext))
      · simp

theorem readsBack_call {function : String} {args : List Expr}
    (hname : Builtin.isName function = true) (h : ∀ arg ∈ args, ReadsBack arg) :
    ReadsBack (.call function args) := by
  intro rest others hrest hreads
  have hargs : Reads (writeAll args (')' :: rest)) (tokensAll args ++ .rightParen :: others) :=
    reads_writeAll h (ends_cons (by decide) (by decide)) (reads_sign (by decide) rfl hreads)
  have hopen : Reads ('(' :: writeAll args (')' :: rest))
      (.leftParen :: (tokensAll args ++ .rightParen :: others)) :=
    reads_sign (by decide) rfl hargs
  have hcall := reads_name (isSmallName_of_isName hname) (ends_cons (by decide) (by decide)) hopen
  simp only [tokens, List.cons_append, List.append_assoc, List.nil_append]
  exact hcall

theorem readsBack_binary {op : Operator} {left right : Expr} (hleft : ReadsBack left)
    (hright : ReadsBack right) : ReadsBack (.binary op left right) := by
  intro rest others hrest hreads
  have hclose : Reads (right.write (')' :: rest)) (right.tokens ++ .rightParen :: others) :=
    hright _ _ (ends_cons (by decide) (by decide)) (reads_sign (by decide) rfl hreads)
  have hop : Reads (' ' :: op.symbol :: ' ' :: right.write (')' :: rest))
      (.operator op :: (right.tokens ++ .rightParen :: others)) :=
    reads_space (reads_sign (isSign_symbol op) (ofSymbol?_symbol op) (reads_space hclose))
  have hboth := hleft _ _ (ends_cons (by decide) (by decide)) hop
  simp only [tokens, List.cons_append, List.append_assoc, List.nil_append]
  exact reads_sign (by decide) rfl hboth

theorem readsBack_of_isReadable (e : Expr) (h : e.isReadable = true) : ReadsBack e := by
  induction e with
  | number value =>
    exact fun rest others hrest hreads => reads_number h hrest hreads
  | var name =>
    exact fun rest others hrest hreads => reads_name h hrest hreads
  | call function args ih =>
    rw [isReadable, Bool.and_eq_true, isReadableAll_iff] at h
    exact readsBack_call h.1 fun arg harg => ih arg harg (h.2 arg harg)
  | binary op left right ihleft ihright =>
    rw [isReadable, Bool.and_eq_true] at h
    exact readsBack_binary (ihleft h.1) (ihright h.2)

end Expr

/-! ## Tidy texts -/

namespace Text

/-- Whether the only blanks of a text are single spaces inside it; `start` says that a blank or
nothing stands in front of it. -/
def isTidy (start : Bool) : List Char → Bool
  | [] => !start
  | c :: cs => if isBlank c then !start && c == ' ' && isTidy true cs else isTidy false cs

/-- The pieces of a tidy text are its words, and single spaces join them. -/
theorem piecesAt_of_isTidy {start : Bool} {cs : List Char} (h : isTidy start cs = true) :
    ∃ piece pieces, piecesAt isBlank cs = piece :: pieces ∧ (start = true → piece ≠ []) ∧
      (∀ other ∈ pieces, other ≠ []) ∧ [' '].intercalate (piece :: pieces) = cs := by
  induction cs generalizing start with
  | nil =>
    obtain rfl : start = false := by simpa [isTidy] using h
    exact ⟨[], [], rfl, by simp, by simp, rfl⟩
  | cons c cs ih =>
    rw [isTidy] at h
    by_cases hblank : isBlank c = true
    · rw [if_pos hblank, Bool.and_eq_true, Bool.and_eq_true, beq_iff_eq] at h
      obtain ⟨⟨hstart, rfl⟩, h⟩ := h
      obtain rfl : start = false := by simpa using hstart
      obtain ⟨piece, pieces, hpieces, hpiece, hothers, hjoin⟩ := ih h
      refine ⟨[], piece :: pieces, ?_, by simp, ?_, ?_⟩
      · rw [piecesAt, if_pos hblank, hpieces]
      · simp only [List.mem_cons, forall_eq_or_imp]
        exact ⟨hpiece rfl, hothers⟩
      · rw [List.intercalate_cons_cons, hjoin]
        rfl
    · rw [if_neg hblank] at h
      obtain ⟨piece, pieces, hpieces, -, hothers, hjoin⟩ := ih h
      refine ⟨c :: piece, pieces, ?_, by simp, hothers, ?_⟩
      · rw [piecesAt, if_neg hblank, hpieces]
      · rw [← hjoin]
        cases pieces with
        | nil => rfl
        | cons next pieces =>
          rw [List.intercalate_cons_cons, List.intercalate_cons_cons]
          rfl

/-- The normalisation leaves a tidy text as it is. -/
theorem normalizeChars_of_isTidy {cs : List Char} (h : isTidy true cs = true) :
    Formula.normalizeChars cs = cs := by
  obtain ⟨piece, pieces, hpieces, hpiece, hothers, hjoin⟩ := piecesAt_of_isTidy h
  have hwords : words cs = piece :: pieces := by
    rw [words, hpieces, List.filter_eq_self]
    intro other hother
    rcases List.mem_cons.mp hother with rfl | hother
    · simpa using hpiece rfl
    · simpa using hothers other hother
  rw [Formula.normalizeChars, hwords, hjoin]

theorem isTidy_word {word : List Char} (hne : word ≠ []) (hword : ∀ c ∈ word, isBlank c = false)
    (start : Bool) (rest : List Char) : isTidy start (word ++ rest) = isTidy false rest := by
  induction word generalizing start with
  | nil => exact absurd rfl hne
  | cons c cs ih =>
    have hc := hword c List.mem_cons_self
    rw [List.cons_append, isTidy, if_neg (by simp [hc])]
    by_cases hcs : cs = []
    · rw [hcs, List.nil_append]
    · exact ih hcs (fun other hother => hword other (List.mem_cons_of_mem c hother)) false

theorem isTidy_cons {c : Char} (hc : isBlank c = false) (start : Bool) (rest : List Char) :
    isTidy start (c :: rest) = isTidy false rest := by
  rw [isTidy, if_neg (by simp [hc])]

theorem isTidy_space (rest : List Char) : isTidy false (' ' :: rest) = isTidy true rest := by
  rw [isTidy, if_pos (by decide)]
  rfl

end Text

namespace Expr

open Text

/-- The text of the expression is tidy, in front of a tidy text. -/
def IsTidy (e : Expr) : Prop :=
  ∀ (start : Bool) (rest : List Char), isTidy start (e.write rest) = isTidy false rest

theorem isTidy_name {name : String} (h : Token.isSmallName name = true) (start : Bool)
    (rest : List Char) : isTidy start (name.toList ++ rest) = isTidy false rest := by
  obtain ⟨c, cs, hname, hc, hcs⟩ := Token.isSmallName_iff.mp h
  rw [hname]
  refine isTidy_word (List.cons_ne_nil c cs) (fun other hother => ?_) start rest
  have hsmall : Token.isSmallChar other = true := by
    rcases List.mem_cons.mp hother with rfl | hother
    · exact Token.isSmallChar_of_isSmallStart hc
    · exact hcs other hother
  have hnat := Token.toNat_of_isSmallChar hsmall
  exact Token.isBlank_of_printed (by omega) (by omega)

theorem isTidy_number {value : Float} (h : isUnsigned value = true) (start : Bool)
    (rest : List Char) :
    isTidy start (Decimal.plainLayout.chars value ++ rest) = isTidy false rest := by
  obtain ⟨c, cs, hchars, hc, hcs⟩ := Decimal.plainChars_eq_cons h
  rw [hchars]
  refine isTidy_word (List.cons_ne_nil c cs) (fun other hother => ?_) start rest
  rcases List.mem_cons.mp hother with rfl | hother
  · exact (Token.class_of_isDigit hc).1
  · rcases hcs other hother with hdigit | rfl
    · exact (Token.class_of_isDigit hdigit).1
    · decide

theorem isTidy_writeAll {args : List Expr} (h : ∀ arg ∈ args, IsTidy arg) (start : Bool)
    (rest : List Char) :
    isTidy start (writeAll args (')' :: rest)) = isTidy false rest := by
  induction args generalizing start with
  | nil => exact isTidy_cons (by decide) start rest
  | cons arg args ih =>
    have harg := h arg List.mem_cons_self
    cases args with
    | nil =>
      rw [writeAll, harg]
      exact isTidy_cons (by decide) false rest
    | cons next args =>
      rw [writeAll, harg, isTidy_cons (by decide), isTidy_space]
      · exact ih (fun other hother => h other (List.mem_cons_of_mem _ hother)) true
      · simp

theorem isTidy_of_isReadable (e : Expr) (h : e.isReadable = true) : IsTidy e := by
  induction e with
  | number value => exact isTidy_number h
  | var name => exact isTidy_name h
  | call function args ih =>
    rw [isReadable, Bool.and_eq_true, isReadableAll_iff] at h
    intro start rest
    rw [write, isTidy_name (isSmallName_of_isName h.1), isTidy_cons (by decide)]
    exact isTidy_writeAll (fun arg harg => ih arg harg (h.2 arg harg)) false rest
  | binary op left right ihleft ihright =>
    rw [isReadable, Bool.and_eq_true] at h
    intro start rest
    have hsymbol : isBlank op.symbol = false := by
      cases op <;> decide
    rw [write, isTidy_cons (by decide), ihleft h.1, isTidy_space, isTidy_cons hsymbol, isTidy_space,
      ihright h.2, isTidy_cons (by decide)]

/-- The tokens of the text of an expression. -/
theorem tokens_text {e : Expr} (h : e.isReadable = true) :
    Formula.tokens e.text = .ok e.tokens := by
  have hreads := readsBack_of_isReadable e h [] [] Token.ends_nil Token.reads_nil
  have htidy := isTidy_of_isReadable e h true []
  have hnormal : Formula.normalize e.text = e.text := by
    rw [Formula.normalize, text, String.toList_ofList, Text.normalizeChars_of_isTidy htidy]
  have hne : e.text ≠ "" := by
    intro hempty
    have hnil : e.write [] = [] := by
      rw [← String.toList_ofList (l := e.write []), ← text, hempty]
      rfl
    rw [hnil] at htidy
    cases htidy
  rw [List.append_nil] at hreads
  exact Token.tokens_of_reads hreads String.toList_ofList hnormal hne

/-- The text of a readable expression is read as the expression. -/
theorem parse_text_of_isReadable {e : Expr} (h : e.isReadable = true) :
    Formula.parse e.text = .ok e := by
  have hderives := derives_of_le (derives_tokens e h) (show 1 ≤ 4 by decide)
  rw [Formula.parse, tokens_text h, ok_bind, ofTokens_of_derives hderives, ok_bind,
    ofPostfix_eq_ok_iff]

/-! ## What is read is readable -/

def isReadableItem : Postfix → Bool
  | .number value => isUnsigned value
  | .var name => Token.isSmallName name
  | .operator _ => true
  | .call function _ => Builtin.isName function

theorem isReadable_iff {e : Expr} :
    e.isReadable = true ↔ ∀ item ∈ e.postorder, isReadableItem item = true := by
  induction e with
  | number value => simp [isReadable, postorder, isReadableItem]
  | var name => simp [isReadable, postorder, isReadableItem]
  | call function args ih =>
    rw [isReadable, Bool.and_eq_true, isReadableAll_iff]
    simp only [postorder, List.mem_append, mem_postorderAll, List.mem_singleton]
    constructor
    · rintro ⟨hname, hargs⟩ item (⟨arg, harg, hitem⟩ | rfl)
      · exact (ih arg harg).mp (hargs arg harg) item hitem
      · exact hname
    · intro h
      refine ⟨h _ (.inr rfl), fun arg harg => (ih arg harg).mpr fun item hitem => ?_⟩
      exact h item (.inl ⟨arg, harg, hitem⟩)
  | binary op left right ihleft ihright =>
    rw [isReadable, Bool.and_eq_true, ihleft, ihright]
    simp only [postorder, List.mem_append, List.mem_singleton]
    constructor
    · rintro ⟨hleft, hright⟩ item ((hitem | hitem) | rfl)
      · exact hleft item hitem
      · exact hright item hitem
      · rfl
    · intro h
      exact ⟨fun item hitem => h item (.inl (.inl hitem)),
        fun item hitem => h item (.inl (.inr hitem))⟩

/-- Formulas with finite numbers are read as readable expressions. -/
theorem isReadable_of_parse {formula : String} {tokens : List Token} {e : Expr}
    (htokens : Formula.tokens formula = .ok tokens)
    (hfinite : ∀ value, .number value ∈ tokens → value.isFinite = true)
    (horder : Postfix.ofTokens tokens = .ok e.postorder) : e.isReadable = true := by
  have hshaped : ∀ token ∈ tokens, token.isShaped = true :=
    Token.isShaped_of_readFrom 0 _ (Formula.tokens_eq_ok_iff.mp htokens).2
  have hleaves := Postfix.leaves_ofTokens horder
  rw [isReadable_iff]
  intro item hitem
  have hleaf : item.isLeaf = true → item ∈ Token.leaves tokens := fun h => by
    rw [← hleaves]
    exact List.mem_filter.mpr ⟨hitem, h⟩
  cases item with
  | number value =>
    have hnumber := Token.mem_of_mem_leavesFrom (hleaf rfl) rfl
    have hvalue := hshaped _ hnumber
    rw [Token.isShaped, hfinite value hnumber] at hvalue
    exact hvalue
  | var name => exact hshaped _ (Token.mem_of_mem_leavesFrom (hleaf rfl) rfl)
  | operator op => rfl
  | call function argc => exact Postfix.isKnown_ofTokens horder _ hitem

theorem parse_eq_ok_iff {formula : String} {e : Expr} :
    Formula.parse formula = .ok e ↔ ∃ tokens, Formula.tokens formula = .ok tokens ∧
      Postfix.ofTokens tokens = .ok e.postorder := by
  rw [Formula.parse, bind_eq_ok_iff]
  simp only [bind_ofPostfix_eq_ok_iff]

/-- The evaluation of a formula sees its tree alone. -/
theorem evaluate_of_parse (policy : AliasPolicy) (bindings : Bindings) {formula : String} {e : Expr}
    (h : Formula.parse formula = .ok e) :
    Formula.evaluate policy bindings formula =
      (checkNames policy bindings ((Postfix.variables e.postorder).map .identifier) >>= fun _ =>
        e.evaluate policy bindings) := by
  obtain ⟨tokens, htokens, horder⟩ := parse_eq_ok_iff.mp h
  have htree : ofPostfix e.postorder = .ok e := ofPostfix_eq_ok_iff.mpr rfl
  rw [Formula.evaluate, htokens, ok_bind, checkNames_of_ofTokens horder, horder]
  simp only [ok_bind, htree]

end Expr

/-! ## Top theorem -/

/-- **The text of an expression is read as the expression, and stands for the formula that it was
read from.** -/
theorem parse_text :
    (∀ e : Expr, e.isReadable = true → Formula.parse e.text = .ok e) ∧
    ∀ (formula : String) (tokens : List Token) (e : Expr), Formula.tokens formula = .ok tokens →
      (∀ value, .number value ∈ tokens → value.isFinite = true) →
      Formula.parse formula = .ok e →
        Formula.parse e.text = .ok e ∧
        ∀ policy bindings,
          Formula.evaluate policy bindings e.text = Formula.evaluate policy bindings formula := by
  refine ⟨fun e h => Expr.parse_text_of_isReadable h, ?_⟩
  intro formula tokens e htokens hfinite hparse
  have hreadable : e.isReadable = true := by
    obtain ⟨others, hothers, horder⟩ := Expr.parse_eq_ok_iff.mp hparse
    obtain rfl : tokens = others := Except.ok.inj (htokens.symm.trans hothers)
    exact Expr.isReadable_of_parse htokens hfinite horder
  have htext := Expr.parse_text_of_isReadable hreadable
  refine ⟨htext, fun policy bindings => ?_⟩
  rw [Expr.evaluate_of_parse policy bindings htext, Expr.evaluate_of_parse policy bindings hparse]

open Token in
/-- A product is written with its parentheses, and a call without arguments keeps its own:
`2 *entry` stands for the same values as `(2 * entry)`. -/
theorem parse_text_product :
    Formula.parse (Expr.call "max" [.binary .mul (.number 2) (.var "entry"), .call "min" []]).text =
      .ok (.call "max" [.binary .mul (.number 2) (.var "entry"), .call "min" []]) ∧
    Formula.tokens "2 *entry" = .ok [number 2, operator .mul, identifier "entry"] ∧
    Formula.parse "2 *entry" = .ok (.binary .mul (.number 2) (.var "entry")) ∧
    ∀ policy bindings,
      Formula.evaluate policy bindings (Expr.binary .mul (.number 2) (.var "entry")).text =
        Formula.evaluate policy bindings "2 *entry" := by
  have two : isUnsigned 2 = true := by decide +kernel
  have htokens : Formula.tokens "2 *entry" = .ok [number 2, operator .mul, identifier "entry"] := by
    have hname := @reads_name "entry" (by decide) [] ends_nil [] reads_nil
    have hsign := @reads_sign '*' (operator .mul) (by decide) rfl _ _ hname
    have hnumber := @reads_lexeme 2 ['2'] two (by decide +kernel) _
      (ends_cons (by decide) (by decide)) _ (reads_space hsign)
    exact tokens_of_reads hnumber (by decide) (by decide) (by decide)
  have hparse : Formula.parse "2 *entry" = .ok (.binary .mul (.number 2) (.var "entry")) := by
    rw [Formula.parse, htokens]
    rfl
  refine ⟨parse_text.1 _ ?_, htokens, hparse, (parse_text.2 _ _ _ htokens ?_ hparse).2⟩
  · simp only [Expr.isReadable, Expr.isReadableAll, two]
    decide
  · intro value hvalue
    obtain rfl : value = 2 := by simpa using hvalue
    decide +kernel

end TradePlan
