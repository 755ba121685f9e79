import ArithTree.Form.Denotation
import ArithTree.Grammar.Source
import ArithTree.Written

/-!
# Dialects

Every dialect can be read and written. Formulas have two written forms, so there is one more
`Writing` than there are dialects; `readBack` writes an expression and reads it in the dialect of
the writing.
-/

namespace ArithTree

/-- The languages that expressions are read in. -/
inductive Dialect where
  | sexpr
  | styled (style : Style)
  deriving DecidableEq, Repr

/-- The expression that a source denotes in a dialect. -/
def Dialect.read : Dialect → String → Except Error Expr
  | .sexpr, source => Expr.ofSexpr source
  | .styled style, source => Expr.ofText style source

/-- The ways to write an expression. -/
inductive Writing where
  | sexpr
  | formula (grouping : Grouping)
  | phrase
  | call
  deriving DecidableEq, Repr

def Writing.dialect : Writing → Dialect
  | .sexpr => .sexpr
  | .formula _ => .styled .formula
  | .phrase => .styled .phrase
  | .call => .styled .call

namespace Expr

def write (e : Expr) : Writing → String
  | .sexpr => e.sexpr
  | .formula grouping => e.formula grouping
  | .phrase => e.phrase
  | .call => e.call

/-- The expression that its own text denotes. -/
def readBack (e : Expr) (w : Writing) : Except Error Expr := w.dialect.read (e.write w)

end Expr

end ArithTree
