/-
The command line: the config is loaded, then the input is read, then the run
is made, and the first of these to fail decides the outcome. How files and the
standard input are read is left to the caller.
-/
import IcuMessage.Arguments
import IcuMessage.Run

namespace IcuMessage

/-- What the command line reads from, in a monad of the caller's. -/
structure Host (m : Type → Type) where
  file : String → m (Except FileError String)
  stdin : m (Except FileError String)

/-- What is seen of a command: exit code, standard output, and the report of a failure. -/
structure Outcome where
  code : UInt8
  stdout : String := ""
  error : Option String := none
  log : List String := []
  deriving DecidableEq, Repr

namespace CommandLine

def name : String :=
  "print-icu-message"

def version : String :=
  "0.1.0"

def help : String :=
  "Print a parsed ICU message as message syntax\n\n" ++
  "Usage: " ++ name ++ " [OPTIONS] [PATH]\n\n" ++
  "Arguments:\n" ++
  "  [PATH]  JSON message tree to print (defaults to stdin)\n\n" ++
  "Options:\n" ++
  "  -p, --pretty         Put each plural/select option on its own line\n" ++
  "  -b, --bundle         Input is an object of message key to message tree\n" ++
  "  -c, --config <PATH>  Path to a JSON printer config\n" ++
  "  -v, --verbose        Enable debug logging\n" ++
  "  -h, --help           Print help\n" ++
  "  -V, --version        Print version\n"

end CommandLine

namespace Arguments

def switches (a : Arguments) : Config where
  prettyPrint := a.pretty
  bundle := a.bundle

end Arguments

namespace Host

variable {m : Type → Type} [Monad m] (host : Host m)

def loadConfig (path : String) : m (Except Failure Config) := do
  match ← host.file path with
  | .error cause => pure (.error (.configUnreadable path cause))
  | .ok text =>
    match Config.read text with
    | .error cause => pure (.error (.configInvalid path cause))
    | .ok config => pure (.ok config)

def configOf : Option String → m (Except Failure Config)
  | none => pure (.ok {})
  | some path => host.loadConfig path

def readInput : Option String → m (Except Failure String)
  | none => do
    match ← host.stdin with
    | .error cause => pure (.error (.stdinUnreadable cause))
    | .ok text => pure (.ok text)
  | some path => do
    match ← host.file path with
    | .error cause => pure (.error (.fileUnreadable path cause))
    | .ok text => pure (.ok text)

end Host

namespace CommandLine

variable {m : Type → Type} [Monad m]

def failed (failure : Failure) : Outcome where
  code := 1
  error := some ("Error: " ++ failure.message ++ "\n")

def ofRun (verbose : Bool) (run : Run) : Outcome :=
  let log := if verbose then run.log .debug else []
  match run.result with
  | .ok text => { code := 0, stdout := text ++ "\n", log }
  | .error failure => { failed failure with log }

def print (host : Host m) (a : Arguments) : m Outcome := do
  match ← host.configOf a.config with
  | .error failure => pure (failed failure)
  | .ok config =>
    match ← host.readInput a.input with
    | .error failure => pure (failed failure)
    | .ok source => pure (ofRun a.verbose (Run.ofSource (config.merge a.switches) source))

def answer (host : Host m) : Request → m Outcome
  | .help => pure { code := 0, stdout := help }
  | .version => pure { code := 0, stdout := name ++ " " ++ version ++ "\n" }
  | .print arguments => print host arguments

def execute (host : Host m) (arguments : List String) : m Outcome :=
  match Request.ofArguments arguments with
  | .error _ => pure { code := 2 }
  | .ok request => answer host request

end CommandLine

end IcuMessage
