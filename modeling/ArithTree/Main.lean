import ArithTree.Command.Basic

/-!
# The program

The command line on the real file system.
-/

namespace ArithTree.Command

/-- The number of an error of the system. Some calls give it with the sign turned. -/
def errorNumber : IO.Error → Nat
  | .noFileOrDirectory _ code _ | .inappropriateType _ code _ | .invalidArgument _ code _
  | .permissionDenied _ code _ => (if code < 0x80000000 then code else 0 - code).toNat
  | _ => 0

/-- The cause behind an error of the system. -/
def fileError (e : IO.Error) : FileError :=
  match errorNumber e with
  | 2 => .notFound
  | 13 => .denied
  | 20 => .notFolder
  | 21 => .isFolder
  | 36 => .nameTooLong
  | _ => .other (toString e)

/-- The text of a content that can be got at. -/
def decodeResult : Except IO.Error ByteArray → Except FileError String
  | .ok content => decode content
  | .error e => .error (fileError e)

/-- What is left of a stream. -/
partial def readAll (stream : IO.FS.Stream) (before : ByteArray) : IO ByteArray := do
  let chunk ← stream.read 65536
  if chunk.isEmpty then return before else readAll stream (before ++ chunk)

def systemHost : Host IO where
  readFile path := do
    return decodeResult (← (IO.FS.readBinFile path).toBaseIO)
  readInput := do
    let stdin ← IO.getStdin
    return decodeResult (← (readAll stdin .empty).toBaseIO)
  seedVariable := IO.getEnv seedName
  randomSeed := do
    return UInt64.ofNat (← IO.rand 0 (UInt64.size - 1))

end ArithTree.Command

def main (args : List String) : IO UInt32 := do
  let result ← ArithTree.Command.exit ArithTree.Command.systemHost args
  (← IO.getStdout).putStr result.stdout
  (← IO.getStderr).putStr result.stderr
  return result.status
