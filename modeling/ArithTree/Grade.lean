import ArithTree.Evaluation
import ArithTree.Form.Denotation
import ArithTree.Grammar.Source
import ArithTree.Text.White
import ArithTree.Written

/-!
# Grades

A candidate program is graded against a reference by its code and by its value. `ofSexprs` takes
two S-expressions, whose code is equal if the texts are, white space at the ends apart;
`ofCall` takes a reference expression and a constructor call, whose code is equal if both
have the same faithful formula and the same phrase. A division by zero on either side leaves the
value out of account, and a fault of the reference comes before one of the candidate.
-/

namespace ArithTree

/-- What the two values say. -/
inductive Verdict where
  | same (value : Int64)
  | different (expected actual : Int64)
  /-- One side divided by zero. -/
  | skipped
  | invalid (cause : Error)
  deriving DecidableEq, Repr

@[ext] structure Grade where
  sameCode : Bool
  verdict : Verdict
  deriving DecidableEq, Repr

namespace Verdict

/-- Whether both sides have a value. -/
def isEvaluable : Verdict → Bool
  | .same _ | .different _ _ => true
  | .skipped | .invalid _ => false

/-- Whether both sides have the same value. -/
def isSame : Verdict → Bool
  | .same _ => true
  | _ => false

/-- The verdict on a side without a value. -/
def ofError : Error → Verdict
  | .divisionByZero => .skipped
  | e => .invalid e

/-- The verdict on two results, the reference first. -/
def ofResults : (reference candidate : Except Error Int64) → Verdict
  | .error e, _ => ofError e
  | .ok _, .error e => ofError e
  | .ok expected, .ok actual =>
    if expected = actual then .same expected else .different expected actual

def text : Verdict → String
  | .same v => "match (" ++ String.ofList (Numeral.ofInt64 v) ++ ")"
  | .different expected actual =>
    "mismatch (expected " ++ String.ofList (Numeral.ofInt64 expected) ++ ", got "
      ++ String.ofList (Numeral.ofInt64 actual) ++ ")"
  | .skipped => "skipped (division by zero)"
  | .invalid e => "invalid (" ++ e.message ++ ")"

end Verdict

namespace Grade

/-- Whether both sides have a value. -/
def isEvaluable (g : Grade) : Bool := g.verdict.isEvaluable

def text (g : Grade) : String :=
  "code: " ++ (if g.sameCode then "match" else "mismatch") ++ ", value: " ++ g.verdict.text

def valueOf (source : String) : Except Error Int64 := do
  (← Expr.ofSexpr source).eval

/-- The grade of one S-expression against another. -/
def ofSexprs (reference candidate : String) : Grade where
  sameCode := Text.trim reference.toList == Text.trim candidate.toList
  verdict := .ofResults (valueOf reference) (valueOf candidate)

/-- The grade of a constructor call against an expression. -/
def ofCall (reference : Expr) (candidate : String) : Grade :=
  match Expr.ofCall candidate with
  | .error e => ⟨false, .invalid e⟩
  | .ok candidate =>
    { sameCode := reference.formula .faithful == candidate.formula .faithful
        && reference.phrase == candidate.phrase
      verdict := .ofResults reference.eval candidate.eval }

end Grade

end ArithTree
