import TradePlan.Proofs.Contents
import TradePlan.Proofs.Mentions
import TradePlan.Proofs.Rendering
import TradePlan.Proofs.Validation

/-!
# The variables of a formula

A formula reports its variables: the names of its text that no opening parenthesis follows, each
once, in the order in which they first stand in the text.  The operators and calls around them have
been reordered in between, but the tree still mentions its variables in the order of the tokens.

    Postfix.ofTokens tokens = .ok e.postorder → e.mentions = Token.uncalledNames tokens
                                                                              (mentions_of_ofTokens)

The value of the formula depends on the variables that it reports, and on no other name.
-/

namespace TradePlan

/-! ## Names in the order of their first appearance -/

/-- A list holds each name of another list once, in the order in which they first appear there. -/
structure IsFirstSeen (written names : List String) : Prop where
  mem_iff : ∀ name, name ∈ names ↔ name ∈ written
  ordered : names.Pairwise fun earlier later => written.idxOf earlier < written.idxOf later

theorem IsFirstSeen.nodup {written names : List String} (h : IsFirstSeen written names) :
    names.Nodup := by
  refine h.ordered.imp fun {x y} hlt heq => ?_
  rw [heq] at hlt
  exact Nat.lt_irrefl _ hlt

/-- Names that satisfy a condition stand in the same order without the names that do not. -/
theorem idxOf_lt_of_filter {p : String → Bool} {names : List String} {x y : String} (hx : p x = true)
    (hy : p y = true) (h : (names.filter p).idxOf x < (names.filter p).idxOf y) :
    names.idxOf x < names.idxOf y := by
  induction names with
  | nil => exact h
  | cons name names ih => grind

theorem pairwise_eraseDups (written : List String) :
    written.eraseDups.Pairwise fun earlier later => written.idxOf earlier < written.idxOf later := by
  cases written with
  | nil => exact .nil
  | cons first rest =>
    have hother : ∀ name ∈ (rest.filter fun name => !name == first).eraseDups,
        (!name == first) = true := fun name hname =>
      (List.mem_filter.mp (List.mem_eraseDups.mp hname)).2
    rw [List.eraseDups_cons, List.pairwise_cons]
    refine ⟨fun later hlater => ?_, ?_⟩
    · have hne := hother later hlater
      grind
    · refine (pairwise_eraseDups (rest.filter fun name => !name == first)).imp_of_mem
        fun {x y} hx hy hlt => ?_
      have hrest := idxOf_lt_of_filter (hother x hx) (hother y hy) hlt
      grind
termination_by written.length
decreasing_by exact Nat.lt_succ_of_le (List.length_filter_le _ _)

theorem isFirstSeen_eraseDups (written : List String) : IsFirstSeen written written.eraseDups :=
  ⟨fun _ => List.mem_eraseDups, pairwise_eraseDups written⟩

/-! ## Variables that are reported -/

namespace Token

/-- The name that a token writes. -/
def name? : Token → Option String
  | .identifier name => some name
  | _ => none

/-- The names that no opening parenthesis follows. -/
def uncalledNames (tokens : List Token) : List String := (operandTokens tokens).filterMap name?

end Token

theorem variables_eq_filterMap (items : List Postfix) :
    Postfix.variables items = (items.filterMap Postfix.token?).filterMap Token.name? := by
  rw [Postfix.variables, List.filterMap_filterMap]
  refine congrArg (items.filterMap ·) (funext fun item => ?_)
  cases item <;> rfl

/-- The postfix order has the variables of the tokens. -/
theorem variables_of_ofTokens {tokens : List Token} {items : List Postfix}
    (h : Postfix.ofTokens tokens = .ok items) :
    Postfix.variables items = Token.uncalledNames tokens := by
  rw [variables_eq_filterMap, Postfix.operands_ofTokens h]
  rfl

/-- **A tree mentions its variables in the order of the tokens.** -/
theorem mentions_of_ofTokens {tokens : List Token} {e : Expr}
    (h : Postfix.ofTokens tokens = .ok e.postorder) : e.mentions = Token.uncalledNames tokens := by
  rw [← Expr.variables_postorder, variables_of_ofTokens h]

/-! ## Variables that count -/

section

variable {policy : AliasPolicy} {bindings others : Bindings} {formula : String} {e : Expr}

/-- The evaluation of a formula reads the mentions of its tree. -/
theorem evaluate_eq_mentions (policy : AliasPolicy) (bindings : Bindings)
    (h : Formula.parse formula = .ok e) :
    Formula.evaluate policy bindings formula =
      (checkNames policy bindings (e.mentions.map .identifier) >>= fun _ =>
        e.evaluate policy bindings) := by
  rw [Expr.evaluate_of_parse policy bindings h, Expr.variables_postorder]

theorem evaluate_eq_of_agree (h : Formula.parse formula = .ok e)
    (hagree : ∀ name ∈ e.mentions,
      bindings.get? (policy.canonical name) = others.get? (policy.canonical name)) :
    Formula.evaluate policy bindings formula = Formula.evaluate policy others formula := by
  have hlook : ∀ name ∈ e.mentions, LooksUpAlike policy bindings policy others name :=
    fun name hname _ => hagree name hname
  have hnames : checkNames policy bindings (e.mentions.map .identifier) =
      checkNames policy others (e.mentions.map .identifier) := by
    refine checkNames_congr fun name hname => hlook name ?_
    simpa using hname
  have hvalue : e.evaluate policy bindings = e.evaluate policy others :=
    Expr.evaluate_eq_of_mentions fun name hname => resolve_congr (hlook name hname)
  rw [evaluate_eq_mentions policy bindings h, evaluate_eq_mentions policy others h, hnames, hvalue]

/-- A tree with a value has a value for each variable that it mentions. -/
theorem exists_get?_of_evaluate {value : Float} (h : e.evaluate policy bindings = .ok value) :
    ∀ name ∈ e.mentions, ∃ bound, bindings.get? (policy.canonical name) = some bound := by
  have hrun : e.postorder.foldlM (numbers policy bindings).step [] = .ok [value] := by
    rw [foldlM_numbers_postorder e (isKnown_of_evaluate h), h]
    rfl
  intro name hname
  rw [← Expr.variables_postorder] at hname
  obtain ⟨bound, hbound⟩ := resolve_of_foldlM hrun name hname
  exact ⟨bound, (resolve_eq_ok_iff.mp hbound).2.1⟩

end

/-! ## Top theorem -/

/-- **A formula reports the variables that its value depends on.**  They are the names of the text that
no opening parenthesis follows, each once and in the order of their first appearance; bindings that
agree on them give the formula the same value or error; and where one of them has no value, neither has
the formula. -/
theorem variableNames_of_parse {formula : String} {e : Expr} (h : Formula.parse formula = .ok e) :
    (∃ tokens, Formula.tokens formula = .ok tokens ∧ e.variableNames.Nodup ∧
      IsFirstSeen (Token.uncalledNames tokens) e.variableNames) ∧
    (∀ policy bindings others,
      (∀ name ∈ e.variableNames,
        bindings.get? (policy.canonical name) = others.get? (policy.canonical name)) →
      Formula.evaluate policy bindings formula = Formula.evaluate policy others formula) ∧
    ∀ policy bindings, (∃ name ∈ e.variableNames, bindings.get? (policy.canonical name) = none) →
      ∀ value, Formula.evaluate policy bindings formula ≠ .ok value := by
  refine ⟨?_, fun policy bindings others hagree => ?_, fun policy bindings hnone value hvalue => ?_⟩
  · obtain ⟨tokens, htokens, horder⟩ := Expr.parse_eq_ok_iff.mp h
    have hseen := isFirstSeen_eraseDups e.mentions
    rw [mentions_of_ofTokens horder] at hseen
    refine ⟨tokens, htokens, ?_⟩
    rw [Expr.variableNames, mentions_of_ofTokens horder]
    exact ⟨hseen.nodup, hseen⟩
  · exact evaluate_eq_of_agree h fun name hname => hagree name (List.mem_eraseDups.mpr hname)
  · obtain ⟨name, hname, hunbound⟩ := hnone
    rw [evaluate_eq_mentions policy bindings h] at hvalue
    obtain ⟨_, -, htree⟩ := bind_eq_ok_iff.mp hvalue
    obtain ⟨bound, hbound⟩ := exists_get?_of_evaluate htree name (List.mem_eraseDups.mp hname)
    rw [hunbound] at hbound
    cases hbound

open Token in
/-- The formula `max(low, atr) - stop_loss) * low` closes a parenthesis too many.  It reports three
variables; with aliases read as the entry price neither the high nor what is bound to the stop loss
counts, and with aliases of their own it has no value without a stop loss. -/
theorem variableNames_of_parse_stop_loss :
    let formula := "max(low, atr) - stop_loss) * low"
    let e : Expr := .binary .mul
      (.binary .sub (.call "max" [.var "low", .var "atr"]) (.var "stop_loss")) (.var "low")
    let bindings := Formula.sampleBindings
    Formula.parse formula = .ok e ∧ e.variableNames = ["low", "atr", "stop_loss"] ∧
    (∃ tokens, Formula.tokens formula = .ok tokens ∧
      IsFirstSeen (uncalledNames tokens) ["low", "atr", "stop_loss"]) ∧
    Formula.evaluate .collapse bindings formula =
      Formula.evaluate .collapse ((bindings.insert "stop_loss" 7).insert "high" 3) formula ∧
    ∀ value, Formula.evaluate .distinct bindings formula ≠ .ok value := by
  intro formula e bindings
  have htokens : Formula.tokens formula = .ok [identifier "max", leftParen, identifier "low", comma,
      identifier "atr", rightParen, operator .sub, identifier "stop_loss", rightParen, operator .mul,
      identifier "low"] := by
    have hlast := @reads_name "low" (by decide) [] ends_nil [] reads_nil
    have hproduct := reads_sign (c := '*') (by decide) rfl (reads_space hlast)
    have hstop := @reads_name "stop_loss" (by decide) _ (ends_cons (by decide) (by decide)) _
      (reads_sign (c := ')') (by decide) rfl (reads_space hproduct))
    have hminus := reads_sign (c := '-') (by decide) rfl (reads_space hstop)
    have hatr := @reads_name "atr" (by decide) _ (ends_cons (by decide) (by decide)) _
      (reads_sign (c := ')') (by decide) rfl (reads_space hminus))
    have hlow := @reads_name "low" (by decide) _ (ends_cons (by decide) (by decide)) _
      (reads_sign (c := ',') (by decide) rfl (reads_space hatr))
    have hcall := @reads_name "max" (by decide) _ (ends_cons (by decide) (by decide)) _
      (reads_sign (c := '(') (by decide) rfl hlow)
    exact tokens_of_reads hcall (by decide) (by decide) (by decide)
  have hparse : Formula.parse formula = .ok e := by
    rw [Formula.parse, htokens]
    rfl
  have hnames : e.variableNames = ["low", "atr", "stop_loss"] := by decide
  obtain ⟨⟨tokens, hread, -, hseen⟩, hagree, hbound⟩ := variableNames_of_parse hparse
  rw [hnames] at hseen hagree hbound
  refine ⟨hparse, hnames, ⟨tokens, hread, hseen⟩, hagree .collapse _ _ ?_, hbound .distinct _ ?_⟩
  · decide +kernel
  · exact ⟨"stop_loss", by decide, by decide +kernel⟩

end TradePlan
