/-
The program: files and the standard input are read as UTF-8, results go to the
standard output, failures and the log to standard error.
-/
import IcuMessage.CommandLine

namespace IcuMessage.Program

def decodeUtf8 (bytes : ByteArray) : Except FileError String :=
  match String.fromUTF8? bytes with
  | some text => .ok text
  | none => .error .notUtf8

/-- The number of a system error; it arrives negated when the file could not even be opened. -/
def errorNumber (code : UInt32) : UInt32 :=
  if code < 0x80000000 then code else 0 - code

def fileError : IO.Error → FileError
  | .noFileOrDirectory _ _ _ => .notFound
  | .inappropriateType _ code _ => if errorNumber code = 20 then .notDirectory else .isDirectory
  | error@(.invalidArgument _ code _) =>
    if errorNumber code = 36 then .nameTooLong else .other (toString error)
  | error => .other (toString error)

def guarded (read : IO ByteArray) : IO (Except FileError String) := do
  try
    let bytes ← read
    pure (decodeUtf8 bytes)
  catch error => pure (.error (fileError error))

partial def readToEnd (stream : IO.FS.Stream) (bytes : ByteArray) : IO ByteArray := do
  let chunk ← stream.read 65536
  if chunk.isEmpty then pure bytes else readToEnd stream (bytes ++ chunk)

def host : Host IO where
  file path := guarded (IO.FS.readBinFile path)
  stdin := guarded do
    let stream ← IO.getStdin
    readToEnd stream ByteArray.empty

def report (arguments : List String) (outcome : Outcome) : IO Unit := do
  for line in outcome.log do
    IO.eprintln line
  IO.print outcome.stdout
  match outcome.error with
  | some text => IO.eprint text
  | none => pure ()
  match Request.ofArguments arguments with
  | .error error => IO.eprintln ("error: " ++ error.message)
  | .ok _ => pure ()

end IcuMessage.Program

def main (arguments : List String) : IO UInt32 := do
  let outcome ← IcuMessage.CommandLine.execute IcuMessage.Program.host arguments
  IcuMessage.Program.report arguments outcome
  pure outcome.code.toUInt32
