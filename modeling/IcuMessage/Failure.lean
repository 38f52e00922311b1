/-
Why a run failed: a file that can not be read, or a text that is not what it
should be. A failure is told as a chain, from what was attempted down to the
cause.
-/
import IcuMessage.Json.Error

namespace IcuMessage

/-- Why a file could not be read: what the system answered, or bytes that are no text. -/
inductive FileError where
  | notFound
  | notDirectory
  | isDirectory
  | nameTooLong
  | notUtf8
  | other (description : String)
  deriving DecidableEq, Repr

def FileError.message : FileError → String
  | notFound => "No such file or directory (os error 2)"
  | notDirectory => "Not a directory (os error 20)"
  | isDirectory => "Is a directory (os error 21)"
  | nameTooLong => "File name too long (os error 36)"
  | notUtf8 => "stream did not contain valid UTF-8"
  | other description => description

inductive Failure where
  | configUnreadable (path : String) (cause : FileError)
  | configInvalid (path : String) (cause : Json.Error)
  | fileUnreadable (path : String) (cause : FileError)
  | stdinUnreadable (cause : FileError)
  | messageInvalid (cause : Json.Error)
  | bundleInvalid (cause : Json.Error)
  deriving DecidableEq, Repr

namespace Failure

/-- What a message that could not be read is called, its cause included. -/
def malformedMessage (cause : Json.Error) : String :=
  "malformed message: " ++ cause.message

def chain : Failure → List String
  | configUnreadable path cause => ["Failed to read config " ++ path, cause.message]
  | configInvalid path cause => ["Invalid config " ++ path, cause.message]
  | fileUnreadable path cause => ["Failed to read " ++ path, cause.message]
  | stdinUnreadable cause => ["Failed to read stdin", cause.message]
  | messageInvalid cause => ["Failed to print message", malformedMessage cause, cause.message]
  | bundleInvalid cause => ["Failed to load message bundle", cause.message]

def message (failure : Failure) : String :=
  ": ".intercalate failure.chain

end Failure

end IcuMessage
