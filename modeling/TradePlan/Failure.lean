import TradePlan.Formula.Error
import TradePlan.Position.Size

/-!
# Failures

Everything that can stop a command, with its wording and the exit code of its class.
-/

namespace TradePlan

/-- What stopped a command. -/
inductive Failure where
  | configParse (file reason : String)
  | configMissing (group key : String)
  | configInvalid (group key reason : String)
  | ruleStore (path reason : String)
  | ruleNotFound (name : String)
  | noSelectedRule
  | ruleInvalid (name reason : String)
  | tradeHistory (path reason : String)
  | formula (error : FormulaError)
  | sizing (error : SizingError Float)
  | io (reason : String)
deriving DecidableEq

namespace Failure

def message : Failure → String
  | configParse file reason => "config parse error in " ++ file ++ ": " ++ reason
  | configMissing group key => "missing config key [" ++ group ++ "] " ++ key
  | configInvalid group key reason =>
    "invalid config value [" ++ group ++ "] " ++ key ++ ": " ++ reason
  | ruleStore path reason => "rule store error in " ++ path ++ ": " ++ reason
  | ruleNotFound name => "no rule named '" ++ name ++ "'"
  | noSelectedRule => "no trading rule is selected"
  | ruleInvalid name reason => "invalid rule '" ++ name ++ "': " ++ reason
  | tradeHistory path reason => "trade history error in " ++ path ++ ": " ++ reason
  | formula error => error.message
  | sizing error => error.message
  | io reason => reason

/-- The exit code of a failure: one for each class, from input and output to the history. -/
def exitCode : Failure → Nat
  | io _ => 1
  | configParse .. | configMissing .. | configInvalid .. => 2
  | ruleStore .. | ruleNotFound _ | noSelectedRule | ruleInvalid .. => 3
  | formula _ => 4
  | sizing _ => 5
  | tradeHistory .. => 6

end Failure

end TradePlan
