import TradePlan.CommandLine.Run

/-!
# The program

Runs a command on the files of the machine.
-/

namespace TradePlan

/-- The fault of a file that an error reports. -/
def fileFault (error : IO.Error) : FileFault :=
  let described (code : UInt32) (details : String) : FileFault :=
    .described (details ++ " (os error " ++ toString code ++ ")")
  match error with
  | .noFileOrDirectory .. => .missing
  | .permissionDenied _ code details => described code details
  | .inappropriateType _ code details => described code details
  | error => .described (toString error)

def machineFiles : FileAccess IO where
  look path := do
    match ← (IO.FS.readBinFile path).toBaseIO with
    | .ok content => return .file content
    | .error error =>
      let fault := fileFault error
      return if fault = .missing then .absent
        else if fault.message = FileFault.directory.message then .directory
        else if error matches .permissionDenied .. then .unreadable fault fault
        else .unreachable fault fault
  put path slot := do
    match slot with
    | .file content =>
      match ← (IO.FS.writeBinFile path content).toBaseIO with
      | .ok _ => return none
      | .error error => return some (fileFault error)
    | _ => return none

/-- Answers a request for help. -/
def usage : String :=
  "Trading rule formulas, risk ladder and position sizing\n\n"
    ++ "Commands: " ++ ", ".intercalate (CommandName.all.map CommandName.word) ++ "\n"

end TradePlan

open TradePlan in
/-- Reads the arguments, runs the command and ends with its exit code. -/
def main (args : List String) : IO UInt32 := do
  match Invocation.ofArguments args with
  | .error .help => do
    IO.print usage
    return 0
  | .error error => do
    IO.eprint usage
    return UInt32.ofNat error.exitCode
  | .ok invocation => do
    let outcome ← invocation.run machineFiles
    IO.print outcome.output
    IO.eprint outcome.errors
    return UInt32.ofNat outcome.exitCode
