import TradePlan.CommandLine.Command
import TradePlan.Files.Table
import TradePlan.History.Trades
import TradePlan.Settings.Basic
import TradePlan.Store.Basic

/-!
# Running commands

A command reads the settings, does its work on files, and ends with an exit code and the texts for
the two output streams.
-/

namespace TradePlan

/-- How a command ended. -/
structure Outcome where
  exitCode : Nat
  output : String
  errors : String
deriving DecidableEq

namespace Outcome

def success (output : String) : Outcome := ⟨0, output, ""⟩

def failure (f : Failure) : Outcome := ⟨f.exitCode, "", "error: " ++ f.message ++ "\n"⟩

/-- An error in a formula, reported under the formula. -/
def formulaError (formula : String) (error : FormulaError) : Outcome :=
  ⟨(Failure.formula error).exitCode, "", Formula.errorReport formula error ++ "\n"⟩

def ofResult {α : Type} (text : α → String) : Except Failure α → Outcome
  | .ok value => success (text value)
  | .error f => failure f

end Outcome

namespace Command

/-! ## Commands without files -/

def runEval (settings : Settings) (formula : String) (vars : List (String × Float)) : Outcome :=
  match Formula.evaluate settings.planner.aliases (.ofList vars) formula with
  | .ok value => .success (Decimal.plain value ++ "\n")
  | .error error => .formulaError formula error

/-- Tries out a formula and shows how it is read. -/
def runCheck (settings : Settings) (formula : String) : Outcome :=
  let result := do
    Formula.check settings.planner.aliases formula
    Formula.parse formula
  match result with
  | .ok e => .success ("ok: " ++ e.text ++ "\n")
  | .error error => .formulaError formula error

def runSize (settings : Settings) (request : SizeRequest Float) : Outcome :=
  match request.size settings.planner.capFraction with
  | .ok position => .success position.text
  | .error error => .failure (.sizing error)

/-- The report on the ladder after a history of trades. -/
def riskReport (ladder : RiskLadder) (trades : List Trade) : String :=
  let state := ladder.replay (trades.map Trade.pnl)
  Text.ofLines
    ["trades:             " ++ toString trades.length,
      "tier:               " ++ toString (state.tier + 1) ++ " of " ++ toString ladder.tiers.length,
      "consecutive wins:   " ++ toString state.wins,
      "consecutive losses: " ++ toString state.losses,
      "risk percent:       " ++ Decimal.plain (ladder.riskPercent state) ++ "%"]

/-! ## Commands on files -/

variable {m : Type → Type} [Monad m] (files : FileAccess m)

/-- Runs an operation of the rule store on the file at a path. -/
def onStore {α : Type} (path : String) (operation : [SlotAccess m] → ExceptT Failure m α) :
    m (Except Failure α) :=
  (@operation (files.slotAccess path)).run

/-- Reads the history at a path.  Where nothing is, there are no trades. -/
def readHistory (path : String) : m (Except Failure (List Trade)) := do
  let slot ← files.look path
  if !slot.exists? then return .ok []
  else
    match slot.readText with
    | .error fault => return .error (.tradeHistory path ("failed to read: " ++ fault.message))
    | .ok text =>
      match Trade.readAll text with
      | .error fault => return .error (.tradeHistory path fault.message)
      | .ok trades => return .ok trades

def readSettings (path : String) : m (Except Failure Settings) := do
  let slot ← files.look path
  let unreadable (reason : String) : Failure :=
    .configParse path ("couldn't read " ++ path ++ ": " ++ reason)
  match slot.readText with
  | .error fault => return .error (unreadable fault.message)
  | .ok text =>
    match Ini.read text with
    | .error fault => return .error (unreadable fault.message)
    | .ok ini =>
      return do
        Settings.validate ini
        Settings.ofIni ini

/-- Plans an order with a named rule, or with the selected one. -/
def runPlan (settings : Settings) (market : Market) (buyingPower : Float) (volume : Option Float)
    (rule : Option String) (rulesPath historyPath : String) : m Outcome := do
  let found ← onStore files rulesPath <|
    match rule with
    | some name => Store.find rulesPath name
    | none => Store.selected rulesPath
  match found with
  | .error f => return .failure f
  | .ok rule =>
    match ← readHistory files historyPath with
    | .error f => return .failure f
    | .ok trades =>
      match settings.planner.plan rule market (trades.map Trade.pnl) buyingPower volume with
      | .error error => return .failure (.sizing error)
      | .ok order => return .success order.text

def run (settings : Settings) : Command → m Outcome
  | .eval formula vars => return runEval settings formula vars
  | .check formula => return runCheck settings formula
  | .rules path => do
    let path := path.getD settings.rulesPath
    return .ofResult TradingRule.listing (← onStore files path (Store.load path))
  | .select name path => do
    let path := path.getD settings.rulesPath
    return .ofResult (fun _ => "selected: " ++ name ++ "\n")
      (← onStore files path (Store.select path name))
  | .risk path => do
    return .ofResult (riskReport settings.planner.ladder)
      (← readHistory files (path.getD settings.historyPath))
  | .size request => return runSize settings request
  | .plan market buyingPower volume rule rulesPath historyPath =>
    runPlan files settings market buyingPower volume rule (rulesPath.getD settings.rulesPath)
      (historyPath.getD settings.historyPath)

end Command

/-- Runs a command with the settings file that it names, if any. -/
def Invocation.run {m : Type → Type} [Monad m] (files : FileAccess m) (invocation : Invocation) :
    m Outcome := do
  match invocation.config with
  | none => invocation.command.run files .standard
  | some path =>
    match ← Command.readSettings files path with
    | .error f => return .failure f
    | .ok settings => invocation.command.run files settings

end TradePlan
