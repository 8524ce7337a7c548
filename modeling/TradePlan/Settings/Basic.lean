import TradePlan.Decimal.Reading
import TradePlan.Failure
import TradePlan.Order.Plan
import TradePlan.Settings.Ini
import TradePlan.Text.Integer

/-!
# Settings

Every setting has a default.  A setting that is present has to hold a usable value:
`Settings.validate` reports the first that does not, in a fixed order, and `Settings.ofIni` takes
the values.
-/

namespace TradePlan

/-! ## Values -/

namespace Ini

/-- The whole number of a key, or a default if there is none. -/
def integer (ini : Ini) (group key : String) (default : Int) : Int :=
  ((ini.get? group key).bind Text.readInteger?).getD default

/-- The number of a key, or a default if there is none. -/
def number (ini : Ini) (group key : String) (default : Float) : Float :=
  ((ini.get? group key).bind fun text => (Decimal.read text).toOption).getD default

/-- The words for yes and no.  Letter case does not count. -/
def truthOf? (text : String) : Option Bool :=
  let word := Text.foldCase text
  if ["true", "yes", "1"].contains word then some true
  else if ["false", "no", "0"].contains word then some false
  else none

/-- The truth value of a key, or a default if there is none. -/
def truth (ini : Ini) (group key : String) (default : Bool) : Bool :=
  ((ini.get? group key).bind truthOf?).getD default

end Ini

/-! ## Tiers -/

/-- What is wrong with a list of tiers. -/
inductive TierFault where
  | notNumber (text : String)
  | none
  | notPositive
  | notAscending
deriving DecidableEq

def TierFault.message : TierFault → String
  | notNumber text => "'" ++ text ++ "' is not a number"
  | none => "at least one tier is required"
  | notPositive => "tiers must be positive"
  | notAscending => "tiers must be strictly ascending"

def isAscending : List Float → Bool
  | x :: y :: rest => !decide (y ≤ x) && isAscending (y :: rest)
  | _ => true

def readNumbers : List String → Except TierFault (List Float)
  | [] => .ok []
  | text :: rest =>
    match Decimal.read text with
    | .error _ => .error (.notNumber text)
    | .ok x => do return x :: (← readNumbers rest)

/-- Reads tiers, with commas between them.  Blank places are passed over. -/
def readTiers (text : String) : Except TierFault (List Float) := do
  let texts := ((Text.piecesAt (· == ',') text.toList).map Text.trimChars).filter (· ≠ [])
  let tiers ← readNumbers (texts.map String.ofList)
  if tiers = [] then .error .none
  else if tiers.any fun x => !(x.isFinite && decide (0 < x)) then .error .notPositive
  else if !isAscending tiers then .error .notAscending
  else return tiers

/-! ## Validation -/

namespace Settings

def maxStreak : Nat := 0xffffffff

/-- What is said of a streak length that is not usable. -/
def streakReason : String := "streak_length must be a whole number of at least 1"

def validateAliases (ini : Ini) : Except Failure Unit :=
  match ini.get? "formula" "collapse_entry_aliases" with
  | none => .ok ()
  | some text =>
    if (Ini.truthOf? text).isSome then .ok ()
    else .error (.configInvalid "formula" "collapse_entry_aliases"
      "collapse_entry_aliases must be true or false")

def validateCap (ini : Ini) : Except Failure Unit :=
  match ini.get? "sizing" "volume_cap_fraction" with
  | none => .ok ()
  | some text =>
    match Decimal.read (Text.trim text) with
    | .error _ => .error (.configInvalid "sizing" "volume_cap_fraction"
        "volume_cap_fraction must be a number")
    | .ok x =>
      if 0 < x ∧ x ≤ 1 then .ok ()
      else .error (.configInvalid "sizing" "volume_cap_fraction"
        "volume_cap_fraction must be greater than 0 and at most 1")

/-- The tiers that are set, or the standard ones. -/
def configuredTiers (ini : Ini) : Except Failure (List Float) :=
  match ini.get? "risk" "tiers" with
  | none => .ok RiskLadder.standard.tiers
  | some text =>
    match readTiers text with
    | .ok tiers => .ok tiers
    | .error fault => .error (.configInvalid "risk" "tiers" fault.message)

def validateStreak (ini : Ini) : Except Failure Unit :=
  match ini.get? "risk" "streak_length" with
  | none => .ok ()
  | some text =>
    match Text.readCount? maxStreak (Text.trim text) with
    | some (_ + 1) => .ok ()
    | _ => .error (.configInvalid "risk" "streak_length" streakReason)

/-- Checks that a path that is set is not blank. -/
def validatePath (ini : Ini) (key : String) : Except Failure Unit :=
  match ini.get? "store" key with
  | none => .ok ()
  | some text =>
    if Text.isBlankText text then .error (.configMissing "store" key) else .ok ()

/-- Checks every setting that is present. -/
def validate (ini : Ini) : Except Failure Unit := do
  validateAliases ini
  validateCap ini
  let _ ← configuredTiers ini
  validateStreak ini
  validatePath ini "rules_path"
  validatePath ini "history_path"

end Settings

/-! ## Settings -/

/-- What commands take from the settings. -/
structure Settings where
  planner : Planner
  rulesPath : String
  historyPath : String

namespace Settings

def defaultRulesPath : String := "trade_rules.json"

def defaultHistoryPath : String := "trade_history.csv"

/-- The settings without a file. -/
def standard : Settings where
  planner := .standard
  rulesPath := defaultRulesPath
  historyPath := defaultHistoryPath

def ladder (ini : Ini) : Except Failure RiskLadder := do
  let tiers ← configuredTiers ini
  let streak := ini.integer "risk" "streak_length" RiskLadder.standard.streak
  let ladder? :=
    if 0 ≤ streak ∧ streak ≤ maxStreak then RiskLadder.ofTiers? tiers streak.toNat else none
  match ladder? with
  | some ladder => return ladder
  | none => .error (.configInvalid "risk" "streak_length" streakReason)

def ofIni (ini : Ini) : Except Failure Settings := do
  let ladder ← ladder ini
  return {
    planner := {
      aliases := if ini.truth "formula" "collapse_entry_aliases" true then .collapse else .distinct
      ladder
      capFraction := ini.number "sizing" "volume_cap_fraction" defaultCapFraction }
    rulesPath := (ini.get? "store" "rules_path").getD defaultRulesPath
    historyPath := (ini.get? "store" "history_path").getD defaultHistoryPath }

end Settings

end TradePlan
