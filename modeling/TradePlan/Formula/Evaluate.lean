import TradePlan.Formula.Expr

/-!
# Evaluating a formula

From the text of a formula to its tree or its value.  The text is first normalised, so positions in
errors count in the normalised text.
-/

namespace TradePlan.Formula

def normalizeChars (cs : List Char) : List Char := [' '].intercalate (Text.words cs)

/-- A formula with single spaces for runs of blanks, and none at the ends. -/
def normalize (formula : String) : String := String.ofList (normalizeChars formula.toList)

/-- The tokens of a formula that is not blank. -/
def tokens (formula : String) : Except FormulaError (List Token) :=
  let formula := normalize formula
  if formula = "" then .error .empty else Token.readAll formula

theorem tokens_eq_ok_iff {formula : String} {others : List Token} :
    tokens formula = .ok others ↔
      normalize formula ≠ "" ∧ Token.readAll (normalize formula) = .ok others := by
  rw [tokens]
  split
  · next h => simp [h]
  · next h => simp [h]

def parse (formula : String) : Except FormulaError Expr := do
  Expr.ofPostfix (← Postfix.ofTokens (← tokens formula))

/-- The value of a formula.  Its names are checked before its structure. -/
def evaluate (policy : AliasPolicy) (bindings : Bindings) (formula : String) :
    Except FormulaError Float := do
  let tokens ← tokens formula
  checkNames policy bindings tokens
  let e ← Expr.ofPostfix (← Postfix.ofTokens tokens)
  e.evaluate policy bindings

/-- Values for trying out a formula apart from any market. -/
def sampleBindings : Bindings :=
  .ofList [("entry", 100), ("low", 95), ("high", 105), ("atr", 2), ("qty", 100),
    ("buying_power", 10000)]

/-- Whether a formula has a value for the sample bindings, and if not, why. -/
def check (policy : AliasPolicy) (formula : String) : Except FormulaError Unit := do
  let _ ← evaluate policy sampleBindings formula
  return ()

/-- The report of an error, with its caret under the normalised formula. -/
def errorReport (formula : String) (error : FormulaError) : String :=
  "error:\n" ++ error.context (normalize formula)

end TradePlan.Formula
