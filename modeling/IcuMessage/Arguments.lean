/-
The arguments of the command line. Switches may be long or short, short ones
may be gathered in one argument, and the config path may be attached to its
switch or follow as the next argument; after `--` nothing is a switch. They are
taken from left to right, and the first that is wrong, or that asks for help or
the version, settles the matter.
-/
namespace IcuMessage

structure Arguments where
  pretty : Bool := false
  bundle : Bool := false
  verbose : Bool := false
  config : Option String := none
  input : Option String := none
  deriving DecidableEq, Repr, Inhabited

/-- What the command line asks for. -/
inductive Request where
  | help
  | version
  | print (arguments : Arguments)
  deriving DecidableEq, Repr

inductive UsageError where
  | unexpected (argument : String)
  | unexpectedValue (switch : String)
  | repeated (switch : String)
  | missingValue (switch : String)
  deriving DecidableEq, Repr

def UsageError.message : UsageError → String
  | unexpected argument => "unexpected argument '" ++ argument ++ "' found"
  | unexpectedValue switch => "unexpected value for '" ++ switch ++ "' found"
  | repeated switch => "the argument '" ++ switch ++ "' cannot be used multiple times"
  | missingValue switch => "a value is required for '" ++ switch ++ "' but none was supplied"

inductive Switch where
  | pretty
  | bundle
  | verbose
  | config
  | help
  | version
  deriving DecidableEq, Repr

namespace Switch

def long : Switch → String
  | pretty => "pretty"
  | bundle => "bundle"
  | verbose => "verbose"
  | config => "config"
  | help => "help"
  | version => "version"

def short : Switch → Char
  | pretty => 'p'
  | bundle => 'b'
  | verbose => 'v'
  | config => 'c'
  | help => 'h'
  | version => 'V'

def all : List Switch :=
  [pretty, bundle, verbose, config, help, version]

def ofLong? (name : List Char) : Option Switch :=
  all.find? fun switch => switch.long.toList = name

def ofShort? (c : Char) : Option Switch :=
  all.find? fun switch => switch.short = c

end Switch

namespace Arguments

/-! ## Setting -/

/-- Whether the arguments are to go on, or an answer is due. -/
inductive Progress where
  | more (arguments : Arguments)
  | settled (request : Request)
  deriving DecidableEq, Repr

def setOnce (switch : Switch) (isSet : Bool) (arguments : Arguments) :
    Except UsageError Progress :=
  if isSet then .error (.repeated ("--" ++ switch.long)) else .ok (.more arguments)

def setConfig (a : Arguments) (path : List Char) : Except UsageError Arguments :=
  if a.config.isSome then .error (.repeated ("--" ++ Switch.config.long))
  else .ok { a with config := some (String.ofList path) }

/-- A switch that stands without a value. -/
def setSwitch (a : Arguments) : Switch → Except UsageError Progress
  | .pretty => setOnce .pretty a.pretty { a with pretty := true }
  | .bundle => setOnce .bundle a.bundle { a with bundle := true }
  | .verbose => setOnce .verbose a.verbose { a with verbose := true }
  | .config => .error (.missingValue ("--" ++ Switch.config.long))
  | .help => .ok (.settled .help)
  | .version => .ok (.settled .version)

def setInput (a : Arguments) (path : String) : Except UsageError Arguments :=
  if a.input.isSome then .error (.unexpected path) else .ok { a with input := some path }

/-! ## One argument -/

/-- What an argument leaves to do: nothing, or a config path still to come. -/
inductive Taken where
  | done (progress : Progress)
  | configDue (arguments : Arguments)
  deriving DecidableEq, Repr

def takeLong (a : Arguments) (text : List Char) : Except UsageError Taken :=
  match text.span (· ≠ '=') with
  | (name, value) =>
    match Switch.ofLong? name, value with
    | none, _ => .error (.unexpected (String.ofList ('-' :: '-' :: name)))
    | some .config, [] => .ok (.configDue a)
    | some .config, _ :: path => (a.setConfig path).map fun a => .done (.more a)
    | some switch, [] => (a.setSwitch switch).map .done
    | some switch, _ :: _ => .error (.unexpectedValue ("--" ++ switch.long))

/-- What is attached to the short config switch. An equals sign in front is not part of it. -/
def attachedPath : List Char → List Char
  | '=' :: path => path
  | path => path

def takeShort (a : Arguments) : List Char → Except UsageError Taken
  | [] => .ok (.done (.more a))
  | c :: rest =>
    match Switch.ofShort? c with
    | none => .error (.unexpected (String.ofList ['-', c]))
    | some .config =>
      match rest with
      | [] => .ok (.configDue a)
      | rest => (a.setConfig (attachedPath rest)).map fun a => .done (.more a)
    | some switch => do
      match ← a.setSwitch switch with
      | .settled request => .ok (.done (.settled request))
      | .more a => takeShort a rest

/-! ## All arguments -/

def takePositionals (a : Arguments) : List String → Except UsageError Arguments
  | [] => .ok a
  | path :: rest => do
    let a ← a.setInput path
    takePositionals a rest

/-- Whether an argument can be taken for a path where a switch might stand. -/
def isPath (argument : String) : Bool :=
  match argument.toList with
  | '-' :: _ :: _ => false
  | _ => true

def takeOne (a : Arguments) (argument : String) : Except UsageError Taken :=
  match argument.toList with
  | '-' :: '-' :: name => a.takeLong name
  | '-' :: c :: switches => a.takeShort (c :: switches)
  | _ => (a.setInput argument).map fun a => .done (.more a)

/-- Goes through the arguments; `configDue` says that the one before asked for a config path. -/
def takeAll (a : Arguments) (configDue : Bool) : List String → Except UsageError Request
  | [] => if configDue then .error (.missingValue ("--" ++ Switch.config.long)) else .ok (.print a)
  | argument :: rest => do
    if configDue then
      if isPath argument then
        let a ← a.setConfig argument.toList
        takeAll a false rest
      else .error (.missingValue ("--" ++ Switch.config.long))
    else if argument = "--" then
      let a ← a.takePositionals rest
      .ok (.print a)
    else
      match ← a.takeOne argument with
      | .configDue a => takeAll a true rest
      | .done (.more a) => takeAll a false rest
      | .done (.settled request) => .ok request

end Arguments

def Request.ofArguments (arguments : List String) : Except UsageError Request :=
  Arguments.takeAll {} false arguments

end IcuMessage
