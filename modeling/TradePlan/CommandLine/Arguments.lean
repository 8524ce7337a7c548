import TradePlan.CommandLine.Values

/-!
# Arguments

The arguments of the program are options and words.  An option is written `--name value`,
`--name=value`, or with one letter `-c value`, `-cvalue` or `-c=value`; after `--` there are only
words.  A word at the top level names a command, which has options of its own and at most one word.

The value of an option that stands in an argument of its own is checked when the next option or word
begins, so an unknown option right after it is reported first.
-/

namespace TradePlan

/-- What is wrong with the arguments, or a request for help instead of a command. -/
inductive UsageError where
  | help
  | nothingGiven
  | missingCommand
  | unknownCommand
  | missingArgument
  | unknownArgument
  | repeatedOption
  | missingValue
  | unreadableValue
  | surplusValue
deriving DecidableEq

/-- The exit code: asking for help is no failure. -/
def UsageError.exitCode : UsageError → Nat
  | help => 0
  | _ => 2

def UsageError.ofValueFault : ValueFault → UsageError
  | .missing => missingValue
  | .unreadable => unreadableValue

/-- An option with a value.  A repeatable one collects all its values. -/
structure OptionSpec where
  name : String
  kind : ValueKind
  repeatable : Bool := false
deriving DecidableEq

/-- What may be given at one level of the arguments: options, one word, or the name of a command. -/
structure Level.Spec where
  options : List OptionSpec
  /-- Whether there is a word, and whether it may begin with a hyphen. -/
  word : Option Bool
  commands : List String

/-- The option that names the settings file.  It may be given at both levels. -/
def configOption : OptionSpec := { name := "config", kind := .path }

/-! ## Scanning -/

/-- What has been read of a level.  `pending` is the last option, with its value once that is
read. -/
structure Scan where
  values : List (String × OptionValue) := []
  word : Option String := none
  pending : Option (OptionSpec × Option String) := none
  onlyWords : Bool := false

namespace Scan

def awaits (scan : Scan) : Bool :=
  match scan.pending with
  | some (_, none) => true
  | _ => false

def add (scan : Scan) (option : OptionSpec) (text : String) : Except UsageError Scan :=
  if !option.repeatable && scan.values.any fun (name, _) => name == option.name then
    .error .repeatedOption
  else
    match option.kind.read text with
    | .error fault => .error (.ofValueFault fault)
    | .ok value => .ok { scan with values := scan.values ++ [(option.name, value)] }

/-- Adds the value of the pending option. -/
def resolve (scan : Scan) : Except UsageError Scan :=
  match scan.pending with
  | none => .ok scan
  | some (_, none) => .error .missingValue
  | some (option, some text) => { scan with pending := none }.add option text

/-- Begins an option; a value in the same argument is added at once. -/
def option (scan : Scan) (option : OptionSpec) (value : Option String) :
    Except UsageError Scan := do
  let scan ← scan.resolve
  match value with
  | some text => scan.add option text
  | none => return { scan with pending := some (option, none) }

/-- Answers a request for help, after the option before it. -/
def askHelp (scan : Scan) : Except UsageError Scan := do
  let _ ← scan.resolve
  .error .help

/-- Reads a word, if one may stand here. -/
def readWord (spec : Level.Spec) (scan : Scan) (arg : String) : Except UsageError Scan :=
  if spec.word.isSome && scan.word.isNone then do
    let scan ← scan.resolve
    return { scan with word := some arg }
  else if spec.commands = [] ∨ (scan.onlyWords ∧ arg ∈ spec.commands) then .error .unknownArgument
  else .error .unknownCommand

/-- Reads an argument that is no option: the value of an option, or a word. -/
def plain (spec : Level.Spec) (scan : Scan) (arg : String) : Except UsageError Scan :=
  match scan.pending, scan.onlyWords with
  | some (option, none), false => .ok { scan with pending := some (option, some arg) }
  | _, _ => scan.readWord spec arg

/-- Whether an argument that looks like an unknown option may be the word. -/
def takesHyphen (spec : Level.Spec) (scan : Scan) : Bool :=
  spec.word == some true && scan.word.isNone

/-- Reads an argument that begins with two hyphens, given without them. -/
def long (spec : Level.Spec) (scan : Scan) (arg : List Char) : Except UsageError Scan :=
  let (name, value) :=
    match Text.cutAt? (· == '=') arg with
    | some (name, value) => (String.ofList name, some (String.ofList value))
    | none => (String.ofList arg, none)
  match spec.options.find? fun option => option.name == name with
  | some option => scan.option option value
  | none =>
    if name = "help" then if value.isSome then .error .surplusValue else scan.askHelp
    else if takesHyphen spec scan then scan.plain spec (String.ofList ('-' :: '-' :: arg))
    else .error .unknownArgument

/-- Reads an argument that begins with one hyphen, given without it.  The letters are `h` for help
and `c` for the settings file. -/
def short (spec : Level.Spec) (scan : Scan) (arg : List Char) : Except UsageError Scan :=
  if takesHyphen spec scan && arg.any fun c => c != 'h' && c != 'c' then
    scan.plain spec (String.ofList ('-' :: arg))
  else
    match arg with
    | 'h' :: _ => scan.askHelp
    | ['c'] => scan.option configOption none
    | 'c' :: '=' :: value => scan.option configOption (some (String.ofList value))
    | 'c' :: value => scan.option configOption (some (String.ofList value))
    | _ => .error .unknownArgument

def argument (spec : Level.Spec) (scan : Scan) (arg : String) : Except UsageError Scan :=
  if scan.onlyWords then scan.plain spec arg
  else
    match arg.toList with
    | ['-', '-'] => .ok { scan with onlyWords := true }
    | '-' :: '-' :: name => scan.long spec name
    | '-' :: c :: letters => scan.short spec (c :: letters)
    | _ => scan.plain spec arg

/-- Reads arguments up to the name of a command, and gives the rest from that name on. -/
def run (spec : Level.Spec) (scan : Scan) : List String → Except UsageError (Scan × List String)
  | [] => .ok (scan, [])
  | arg :: rest =>
    if !scan.onlyWords && !scan.awaits && spec.commands.contains arg then .ok (scan, arg :: rest)
    else do
      let scan ← scan.argument spec arg
      run spec scan rest

/-! ## Values -/

def text? (scan : Scan) (name : String) : Option String :=
  match scan.values.lookup name with
  | some (.text value) => some value
  | _ => none

def number? (scan : Scan) (name : String) : Option Float :=
  match scan.values.lookup name with
  | some (.number value) => some value
  | _ => none

def side? (scan : Scan) (name : String) : Option Side :=
  match scan.values.lookup name with
  | some (.side value) => some value
  | _ => none

/-- The variables of an option in order. -/
def bindings (scan : Scan) (name : String) : List (String × Float) :=
  scan.values.filterMap fun (option, value) =>
    match value with
    | .binding variableName x => if option = name then some (variableName, x) else none
    | _ => none

/-- A value that has to be given. -/
def required {α : Type} (value : Option α) : Except UsageError α :=
  match value with
  | some value => .ok value
  | none => .error .missingArgument

end Scan

end TradePlan
