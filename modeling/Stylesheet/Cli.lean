import Stylesheet.Config.Read
import Stylesheet.Lint
import Stylesheet.Token.Json

set_option autoImplicit false

/-! # The command line

`csslint lint` reports the findings about the files it is given and `csslint tokens` prints their
token streams. A run is a function of the arguments, of what the files hold and of how much is to be
logged; it gives the lines printed, in order, and the exit code. -/

namespace Stylesheet.Cli

/-! ## Files, lines and logging -/

/-- What comes of opening a file. -/
inductive Opened where
  | failed (error : ReadError)
  /-- The file is open; reading it may still fail. -/
  | file (source : Source)
deriving DecidableEq, Repr

inductive Line where
  /-- A line of the output proper. -/
  | out (text : String)
  /-- A line for the user. -/
  | err (text : String)
deriving DecidableEq, Repr

/-- How much is logged: nothing, the files as they are linted, or also what the scanner does. -/
inductive LogLevel where
  | off
  | debug
  | trace
deriving DecidableEq, Repr

/-- How a run ended. -/
structure Outcome where
  lines : List Line
  exit : Nat
deriving DecidableEq, Repr

/-- Arguments that do not say what to do, or not what can be done. -/
def misuse (lines : List String) : Outcome := { lines := lines.map Line.err, exit := 2 }

def usage : List String :=
  ["Usage: csslint <command> [--config FILE] [files...]",
   "",
   "Commands:",
   "  lint    Report problems in CSS file(s)",
   "  tokens  Print the token stream of CSS file(s) as JSON lines",
   "",
   "Examples:",
   "  csslint lint style.css",
   "  csslint lint --config csslint.json a.css b.css",
   "  csslint tokens style.css"]

/-! ## Log lines -/

def debugLine (log : LogLevel) (text : String) : List Line :=
  if log = .off then [] else [.out ("DEBUG csslint_rs::linter: " ++ text)]

def atText (p : Position) : String :=
  "line=" ++ toString p.line ++ " column=" ++ toString p.column

def eventText : Scan.Event → String
  | .token rule type start =>
    "csslint_rs::tokenizer: token rule=" ++ rule.name ++ " kind=" ++ type.name ++ " " ++
      atText start
  | .blockOpened position depth =>
    "csslint_rs::rules: block opened " ++ atText position ++ " depth=" ++ toString depth
  | .blockClosed position depth =>
    "csslint_rs::rules: block closed " ++ atText position ++ " depth=" ++ toString depth
  | .blockForceClosed depth =>
    "csslint_rs::tokenizer: block force-closed depth=" ++ toString depth

/-- What the scanner did, if that is logged. -/
def traceLines (log : LogLevel) (output : Scan.Output) : List Line :=
  if log = .trace then output.events.map fun event => .out ("TRACE " ++ eventText event) else []

/-! ## Commands -/

/-- What a command printed for one file, and whether anything was wrong with the file. -/
structure FileReport where
  lines : List Line
  bad : Bool
deriving DecidableEq, Repr

def faultLine (path message : String) : Line := .err (path ++ ": " ++ message)

def findingLine (path : String) (f : Finding) : Line :=
  .out (path ++ ":" ++ f.start.toText ++ ": " ++ f.message ++ " [" ++ f.key.name ++ "]")

/-- Reports the findings about a file, or that there are none. -/
def lintFile (log : LogLevel) (k : Knowledge) (path : String) (opened : Opened) : FileReport :=
  let opening := debugLine log ("linting file path=" ++ path)
  match opened with
  | .failed error => { lines := opening ++ [faultLine path error.message], bad := true }
  | .file source =>
    let opening := opening ++ source.outputs.items.flatMap (traceLines log)
    match source.lint k with
    | .error fault => { lines := opening ++ [faultLine path fault.message], bad := true }
    | .ok found =>
      let opening := opening ++ debugLine log ("source linted errors=" ++ toString found.length)
      if found.isEmpty then { lines := opening ++ [faultLine path "valid"], bad := false }
      else { lines := opening ++ found.map (findingLine path), bad := true }

/-- Prints the token stream of a file, each item as soon as its last character is scanned. -/
def printTokens (log : LogLevel) (path : String) (opened : Opened) : FileReport :=
  match opened with
  | .failed error => { lines := [faultLine path error.message], bad := true }
  | .file source =>
    let outputs := source.outputs
    let lines := outputs.items.flatMap fun output =>
      traceLines log output ++ output.items.map fun item => .out item.toJson
    match outputs.failure with
    | some error => { lines := lines ++ [faultLine path error.message], bad := true }
    | none => { lines, bad := false }

/-- The command with a given name, for one file. -/
def command? (name : String) (log : LogLevel) (k : Knowledge) :
    Option (String → Opened → FileReport) :=
  if name = "lint" then some (lintFile log k)
  else if name = "tokens" then some (printTokens log)
  else none

/-! ## Configuration -/

/-- All the bytes of a source. -/
def allBytes (read : List UInt8) : Source → Except ReadError (List UInt8)
  | [] => .ok read
  | .interrupted :: reads => allBytes read reads
  | .failed message :: _ => .error ⟨message⟩
  | .bytes [] :: _ => .ok read
  | .bytes chunk :: reads => allBytes (read ++ chunk) reads

/-- The configuration in a file, or what is wrong with it. -/
def loadConfig : Opened → Except String Config
  | .failed error => .error error.message
  | .file source =>
    match allBytes [] source with
    | .error error => .error error.message
    | .ok bytes =>
      match Utf8.decodeStrict? bytes with
      | none => .error "stream did not contain valid UTF-8"
      | some text =>
        match Config.parse? (String.ofList text) with
        | some config => .ok config
        | none => .error "invalid configuration:"

/-! ## Runs -/

/-- Runs a command on the files, one after the other. -/
def runFiles (files : String → Opened) (log : LogLevel) (name : String) (config : Config)
    (paths : List String) : Outcome :=
  if paths.isEmpty then misuse ["Error: no files specified"]
  else
    match command? name log (Knowledge.ofConfig config) with
    | none => misuse ["Unknown command: " ++ name]
    | some command =>
      let reports := paths.map fun path => command path (files path)
      { lines := reports.flatMap FileReport.lines
        exit := if reports.any FileReport.bad then 1 else 0 }

/-- A run with the given arguments, the name of the program not among them. -/
def run (files : String → Opened) (log : LogLevel) (args : List String) : Outcome :=
  match args with
  | [] => misuse usage
  | name :: rest =>
    if name = "--help" ∨ name = "-h" then misuse usage
    else
      match rest with
      | [] => runFiles files log name {} []
      | option :: rest =>
        if option ≠ "--config" then runFiles files log name {} (option :: rest)
        else
          match rest with
          | [] => misuse ["Error: --config requires a file"]
          | path :: paths =>
            match loadConfig (files path) with
            | .error message => misuse [path ++ ": " ++ message]
            | .ok config => runFiles files log name config paths

end Stylesheet.Cli
