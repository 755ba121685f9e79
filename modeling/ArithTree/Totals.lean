import ArithTree.Binary64.Basic
import ArithTree.Grade

/-!
# Totals

Running totals over grades, and the two rates drawn from them. A rate over nothing is zero.
-/

namespace ArithTree

/-- Counts of the grades so far: all of them, those with a value on both sides, those with the same
value, and those with the same code. -/
structure Totals where
  graded : Nat := 0
  evaluable : Nat := 0
  sameValue : Nat := 0
  sameCode : Nat := 0
  deriving DecidableEq, Repr

namespace Totals

def add (t : Totals) (g : Grade) : Totals where
  graded := t.graded + 1
  evaluable := t.evaluable + g.isEvaluable.toNat
  sameValue := t.sameValue + g.verdict.isSame.toNat
  sameCode := t.sameCode + g.sameCode.toNat

def ofGrades (gs : List Grade) : Totals := gs.foldl add {}

/-- The part of the evaluable grades that have the same value. -/
def valueRate (t : Totals) : Binary64 := .ofRatio false t.sameValue t.evaluable

/-- The part of all grades that have the same code. -/
def codeRate (t : Totals) : Binary64 := .ofRatio false t.sameCode t.graded

end Totals

end ArithTree
