import UiMarkup.CommandLine.Run

/-!
# The command line program
-/

namespace UiMarkup.CommandLine

/-- The number of an error comes with either sign. -/
def isNumber (code number : UInt32) : Bool := code = number || code = 0 - number

def readError : IO.Error → ReadError
  | .noFileOrDirectory .. => .missing
  | .inappropriateType _ code _ => if isNumber code 21 then .directory else .notDirectory
  | e@(.invalidArgument _ code _) =>
    if isNumber code 36 then .nameTooLong else .other (toString e)
  | e => .other (toString e)

def readBytes (bytes : IO ByteArray) : IO (Except ReadError String) := do
  match ← bytes.toBaseIO with
  | .ok bytes => pure (textOfBytes bytes)
  | .error e => pure (.error (readError e))

partial def readAll (stream : IO.FS.Stream) (read : ByteArray) : IO ByteArray := do
  let chunk ← stream.read 65536
  if chunk.isEmpty then pure read else readAll stream (read ++ chunk)

def systemInputs : Inputs IO where
  file name := readBytes (IO.FS.readBinFile name)
  standard := readBytes (do readAll (← IO.getStdin) .empty)

end UiMarkup.CommandLine

def main (arguments : List String) : IO UInt32 := do
  let outcome ← UiMarkup.CommandLine.run UiMarkup.CommandLine.systemInputs arguments
  IO.print outcome.output
  IO.eprint outcome.errors
  pure outcome.exitCode.toUInt32
