/-
A run: a source is read as a message or as a bundle, as the config says, and
printed. Along the way it is logged what is read and which arguments are
printed; a run that fails has logged only that it started.
-/
import IcuMessage.Bundle
import IcuMessage.Config
import IcuMessage.Failure

namespace IcuMessage

inductive Event where
  | started (config : Config)
  | messageLoaded (elements : Nat)
  | bundleLoaded (messages : Nat)
  | argumentPrinted (id : ArgumentId) (type : ArgumentType)
  deriving DecidableEq, Repr

/-- How detailed a log has to be to show an event. -/
inductive Level where
  | debug
  | trace
  deriving DecidableEq, Repr

namespace Event

def level : Event → Level
  | started _ => .debug
  | messageLoaded _ => .debug
  | bundleLoaded _ => .debug
  | argumentPrinted _ _ => .trace

def text : Event → String
  | started config =>
    "printing " ++ (if config.bundle then "bundle" else "message") ++
      " (pretty_print: " ++ toString config.prettyPrint ++ ")"
  | messageLoaded elements => "loaded message with " ++ toString elements ++ " elements"
  | bundleLoaded messages => "loaded bundle with " ++ toString messages ++ " messages"
  | argumentPrinted id type =>
    "printing argument `" ++ String.ofList id.text ++ "` as " ++ type.name

def ofPrinted (printed : Printed) : List Event :=
  printed.arguments.map fun (id, type) => argumentPrinted id type

end Event

structure Run where
  events : List Event
  result : Except Failure String

namespace Run

def ofMessage (config : Config) (source : String) : Run :=
  match Message.read source with
  | .error cause => ⟨[.started config], .error (.messageInvalid cause)⟩
  | .ok message =>
    let printed := message.print config.layout
    ⟨.started config :: .messageLoaded message.length :: Event.ofPrinted printed,
      .ok (String.ofList printed.text)⟩

def ofBundle (config : Config) (source : String) : Run :=
  match Bundle.read source with
  | .error cause => ⟨[.started config], .error (.bundleInvalid cause)⟩
  | .ok bundle =>
    let printed := bundle.print config.layout
    let texts := printed.map fun p => String.ofList p.text
    ⟨.started config :: .bundleLoaded bundle.size ::
        printed.entries.flatMap fun (_, p) => Event.ofPrinted p,
      .ok (String.ofList texts.write)⟩

def ofSource (config : Config) (source : String) : Run :=
  if config.bundle then ofBundle config source else ofMessage config source

/-- The texts of the events of one level, in order. -/
def log (run : Run) (level : Level) : List String :=
  (run.events.filter fun event => event.level = level).map Event.text

end Run

end IcuMessage
