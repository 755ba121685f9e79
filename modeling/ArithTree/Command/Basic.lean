import ArithTree.Command.Files
import ArithTree.Command.Texts
import ArithTree.Numeral.Unsigned

/-!
# The command line

The program of the command line, as a function of its arguments in any monad that offers a `Host`:
files, standard input, the seed variable and randomness. Arguments are looked at from left to
right, and a file is read before the next argument is looked at. `Bench` is a host without effects.
-/

namespace ArithTree.Command

/-- What the program asks of its surroundings. -/
structure Host (m : Type → Type) where
  /-- The text of a file. -/
  readFile : String → m (Except FileError String)
  /-- All of standard input that is left. -/
  readInput : m (Except FileError String)
  /-- The value of the seed variable, if it is set. -/
  seedVariable : m (Option String)
  /-- A random seed. -/
  randomSeed : m UInt64

/-- Why the program fails. -/
inductive Failure where
  | usage
  | missingArgument
  | file (cause : FileError)
  | argument (fault : Numeral.Fault)
  | seed (fault : Numeral.Fault)
  | error (cause : Error)
  | shortage (cause : Shortage)
  deriving DecidableEq, Repr

def usageText : String :=
  "usage:\n  bonsai-arith eval <file|->\n  bonsai-arith render <file|->\n" ++
    "  bonsai-arith gen <depth> [count]\n" ++
    "  bonsai-arith check [--constructor] <reference-file> <candidate-file>"

def seedName : String := "BONSAI_SEED"

def Failure.message : Failure → String
  | .usage => usageText
  | .missingArgument => "missing argument\n" ++ usageText
  | .file cause => cause.message
  | .argument fault => fault.message
  | .seed fault => seedName ++ " must be an unsigned integer: " ++ fault.message
  | .error cause => cause.message
  | .shortage cause => cause.message

section

variable {m : Type → Type} [Monad m]

/-- A program that can fail. -/
abbrev Program (m : Type → Type) := ExceptT Failure m

/-- A result with its errors seen as failures of the program. -/
def liftError {α ε : Type} (asFailure : ε → Failure) (r : Except ε α) : Program m α :=
  match r with
  | .ok a => return a
  | .error e => throw (asFailure e)

def argument (args : List String) (position : Nat) : Program m String :=
  match args[position]? with
  | some arg => return arg
  | none => throw .missingArgument

/-- The source that an argument names: a file, or standard input if it is a dash. -/
def readSource (host : Host m) (arg : String) : Program m String := do
  let source ← if arg = "-" then host.readInput else host.readFile arg
  liftError .file source

/-- The seed of the seed variable, or a random one if it is not set. -/
def readSeed (host : Host m) : Program m UInt64 := do
  match ← host.seedVariable with
  | none => host.randomSeed
  | some text =>
    let n ← liftError .seed (Numeral.readUnsigned (Text.trim text.toList))
    return UInt64.ofNat n

def readNumber (arg : String) : Program m Nat :=
  liftError .argument (Numeral.readUnsigned arg.toList)

/-- The output of the program for its arguments. -/
def run (host : Host m) (args : List String) : Program m String := do
  match args with
  | "eval" :: _ =>
    let source ← readSource host (← argument args 1)
    liftError .error (evalText source)
  | "render" :: _ =>
    let source ← readSource host (← argument args 1)
    liftError .error (renderText source)
  | "gen" :: _ =>
    let depth ← readNumber (← argument args 1)
    let count ← match args[2]? with
      | some arg => readNumber arg
      | none => pure 1
    let seed ← readSeed host
    liftError .error (← liftError .shortage (genText (Sampler.ofSeed seed) depth count))
  | "check" :: "--constructor" :: _ =>
    let reference ← readSource host (← argument args 2)
    let candidate ← readSource host (← argument args 3)
    liftError .error (checkCallText reference candidate)
  | "check" :: _ =>
    let reference ← readSource host (← argument args 1)
    let candidate ← readSource host (← argument args 2)
    return checkText reference candidate
  | _ => throw .usage

/-- What a run leaves behind. -/
structure Exit where
  status : UInt32
  stdout : String
  stderr : String
  deriving DecidableEq, Repr

/-- The output with a line break after it, or the failure on standard error. Without room for the
lines the program is aborted: another status, and no report of its own. -/
def Exit.ofResult : Except Failure String → Exit
  | .ok output => ⟨0, output ++ "\n", ""⟩
  | .error (.shortage .room) => ⟨101, "", Shortage.room.message ++ "\n"⟩
  | .error failure => ⟨1, "", "error: " ++ failure.message ++ "\n"⟩

def exit (host : Host m) (args : List String) : m Exit := do
  return Exit.ofResult (← (run host args).run)

end

/-- A host without effects: a directory, an input that can be read once, and a seed. -/
structure Bench where
  directory : Directory
  input : String
  seed : Option String

/-- The bench as a host. Its random seed is zero. -/
def Bench.host : Host (StateM Bench) where
  readFile path := fun bench => (bench.directory.read path, bench)
  readInput := fun bench => (.ok bench.input, { bench with input := "" })
  seedVariable := fun bench => (bench.seed, bench)
  randomSeed := fun bench => (0, bench)

/-- A run of the program on a bench. -/
def Bench.exit (bench : Bench) (args : List String) : Exit :=
  (Command.exit Bench.host args bench).1

end ArithTree.Command
