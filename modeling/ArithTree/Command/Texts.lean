import ArithTree.Dialect
import ArithTree.Grade
import ArithTree.Sampler

/-!
# Texts of the commands

What each command prints for the sources it is given, without the reading of files.
-/

namespace ArithTree.Command

def evalText (source : String) : Except Error String := do
  let value ← (← Expr.ofSexpr source).eval
  return String.ofList (Numeral.ofInt64 value)

/-- The labels under which an expression is listed in all its writings. -/
def listing : List (String × Writing) :=
  [("sexpr:  ", .sexpr), ("infix:  ", .formula .faithful), ("lisp:   ", .formula .sparing),
    ("phrase: ", .phrase), ("ctor:   ", .call)]

/-- An S-expression in all writings, one a line. -/
def renderText (source : String) : Except Error String := do
  let e ← Expr.ofSexpr source
  return "\n".intercalate (listing.map fun (label, writing) => label ++ e.write writing)

/-- The grade of a candidate against a reference, both S-expressions. -/
def checkText (reference candidate : String) : String := (Grade.ofSexprs reference candidate).text

/-- The grade of a constructor call against an S-expression, which must denote an expression. -/
def checkCallText (reference candidate : String) : Except Error String := do
  return (Grade.ofCall (← Expr.ofSexpr reference) candidate).text

/-- Random expressions of a depth as S-expressions, one a line. -/
def sampleText {σ : Type} [Random.Source σ] (g : Sampler σ) (depth count : Nat) :
    Option (Except Error String) := do
  let made ← g.sampleMany depth count
  return made.map fun es => "\n".intercalate (es.map Expr.sexpr)

/-- The most lines there is room for: 24 bytes each, in one allocation of a signed 64-bit size. -/
def maxLines : Nat := 0x7FFFFFFFFFFFFFFF / 24

/-- What the sampling of a text runs short of. Neither is an error in an expression. -/
inductive Shortage where
  | room
  | patience
  deriving DecidableEq, Repr

def Shortage.message : Shortage → String
  | .room => "capacity overflow"
  | .patience => "no random word was accepted"

/-- Sampled expressions, one a line. Room for all lines is set aside before anything is drawn. -/
def genText {σ : Type} [Random.Source σ] (g : Sampler σ) (depth count : Nat) :
    Except Shortage (Except Error String) :=
  if maxLines < count then .error .room
  else
    match sampleText g depth count with
    | some text => .ok text
    | none => .error .patience

end ArithTree.Command
