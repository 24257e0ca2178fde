import Stylesheet.Cli

set_option autoImplicit false

/-! # The program `csslint`

Opens the files named on the command line, hands their contents to `Cli.run` and prints what it
says. The environment variable `CSSLINT_LOG` sets how much is logged: `debug` or `trace`. -/

namespace Stylesheet.Cli

/-- A file that could not be read: some can be opened all the same, and only reading fails. -/
def unread : IO.Error → Opened
  | .noFileOrDirectory .. => .failed ⟨"No such file or directory (os error 2)"⟩
  | .permissionDenied .. => .failed ⟨"Permission denied (os error 13)"⟩
  | .inappropriateType .. => .file [.failed "Is a directory (os error 21)"]
  | e => .failed ⟨toString e⟩

def openFile (path : String) : IO Opened := do
  try
    let bytes ← IO.FS.readBinFile path
    return .file (.ofBytes bytes.toList)
  catch e =>
    return unread e

def logLevel (setting : Option String) : LogLevel :=
  match setting with
  | some "debug" => .debug
  | some "trace" => .trace
  | _ => .off

end Stylesheet.Cli

open Stylesheet

def main (args : List String) : IO UInt32 := do
  let files ← (args.drop 1).mapM fun path => do return (path, ← Cli.openFile path)
  let opened (path : String) : Cli.Opened :=
    (files.lookup path).getD (.file [])
  let log := Cli.logLevel (← IO.getEnv "CSSLINT_LOG")
  let outcome := Cli.run opened log args
  for line in outcome.lines do
    match line with
    | .out text => IO.println text
    | .err text => IO.eprintln text
  return outcome.exit.toUInt32
