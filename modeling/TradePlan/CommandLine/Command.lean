import TradePlan.CommandLine.Arguments
import TradePlan.Position.Size
import TradePlan.Rule.Levels

/-!
# Commands

What the program can be asked to do, read from its arguments.
-/

namespace TradePlan

/-- A command.  Paths that are not given are taken from the settings. -/
inductive Command where
  | eval (formula : String) (vars : List (String × Float))
  | check (formula : String)
  | rules (rulesPath : Option String)
  | select (name : String) (rulesPath : Option String)
  | risk (historyPath : Option String)
  | size (request : SizeRequest Float)
  | plan (market : Market) (buyingPower : Float) (volume : Option Float) (rule : Option String)
      (rulesPath historyPath : Option String)

/-- A command, and the settings file to run it with. -/
structure Invocation where
  config : Option String
  command : Command

inductive CommandName where
  | eval
  | check
  | rules
  | select
  | risk
  | size
  | plan
deriving DecidableEq

namespace CommandName

def all : List CommandName := [eval, check, rules, select, risk, size, plan]

def word : CommandName → String
  | eval => "eval"
  | check => "check"
  | rules => "rules"
  | select => "select"
  | risk => "risk"
  | size => "size"
  | plan => "plan"

def ofWord? (word : String) : Option CommandName := all.find? fun name => name.word == word

def number (name : String) : OptionSpec := { name, kind := .number }

def path (name : String) : OptionSpec := { name, kind := .path }

/-- What a command takes, apart from the settings file. -/
def options : CommandName → List OptionSpec
  | eval => [{ name := "var", kind := .binding, repeatable := true }]
  | check => []
  | rules => [path "rules"]
  | select => [path "rules"]
  | risk => [path "history"]
  | size =>
    [number "entry", number "stop", number "risk", number "buying-power", number "volume",
      number "partial"]
  | plan =>
    [number "entry", number "low", number "high", number "atr", number "buying-power",
      { name := "side", kind := .side }, { name := "rule", kind := .text }, number "volume",
      path "rules", path "history"]

/-- Whether a command takes a word, and whether it may begin with a hyphen, as formulas may. -/
def takesWord : CommandName → Option Bool
  | eval | check => some true
  | select => some false
  | _ => none

/-- What may be given after the word of a command. -/
def spec (name : CommandName) : Level.Spec where
  options := configOption :: name.options
  word := name.takesWord
  commands := []

def command (name : CommandName) (scan : Scan) : Except UsageError Command :=
  match name with
  | eval => do
    return .eval (← Scan.required scan.word) (scan.bindings "var")
  | check => do
    return .check (← Scan.required scan.word)
  | rules => .ok (.rules (scan.text? "rules"))
  | select => do
    return .select (← Scan.required scan.word) (scan.text? "rules")
  | risk => .ok (.risk (scan.text? "history"))
  | size => do
    return .size {
      entry := ← Scan.required (scan.number? "entry")
      stop := ← Scan.required (scan.number? "stop")
      riskPercent := ← Scan.required (scan.number? "risk")
      buyingPower := ← Scan.required (scan.number? "buying-power")
      volume := scan.number? "volume"
      partialFill := scan.number? "partial" }
  | plan => do
    let market : Market := {
      entry := ← Scan.required (scan.number? "entry")
      side := (scan.side? "side").getD .long
      low := ← Scan.required (scan.number? "low")
      high := ← Scan.required (scan.number? "high")
      atr := ← Scan.required (scan.number? "atr") }
    return .plan market (← Scan.required (scan.number? "buying-power")) (scan.number? "volume")
      (scan.text? "rule") (scan.text? "rules") (scan.text? "history")

end CommandName

namespace Invocation

/-- What may be given before the word of a command. -/
def topSpec : Level.Spec where
  options := [configOption]
  word := none
  commands := CommandName.all.map CommandName.word ++ ["help"]

/-- Answers the command `help`, which may be followed by the word of one command. -/
def help (words : List String) : UsageError :=
  match words with
  | [] => .help
  | [word] => if topSpec.commands.contains word then .help else .unknownCommand
  | _ => .unknownCommand

/-- Reads the arguments of the program.  A settings file given after the command goes before one
given in front of it. -/
def ofArguments (args : List String) : Except UsageError Invocation := do
  let (top, rest) ← Scan.run topSpec {} args
  match rest with
  | [] =>
    let top ← top.resolve
    if top.values = [] then .error .nothingGiven else .error .missingCommand
  | word :: rest =>
    match CommandName.ofWord? word with
    | none => .error (help rest)
    | some name =>
      let (scan, _) ← Scan.run name.spec {} rest
      let scan ← scan.resolve
      let command ← name.command scan
      let top ← top.resolve
      return ⟨(scan.text? "config").or (top.text? "config"), command⟩

end Invocation

end TradePlan
