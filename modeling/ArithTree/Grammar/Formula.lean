import ArithTree.Grammar.Parser

/-!
# The grammar of formulas

A sum is a chain of products and a product a chain of factors, both grouped to the left; a factor
is a literal or a sum in parentheses. Parentheses add no node but count as nesting.
-/

namespace ArithTree.Formula

open ArithTree.Parser

/-- The sign of one of the operators, after blanks. -/
def sign (ops : List Op) : Parser Op :=
  oneOf (ops.map fun op => do
    blanks
    word op.sign
    return op)

/-- One more operand on the right of a chain. -/
def step (ops : List Op) (operand : Parser Expr) (left : Expr) : Parser Expr := do
  let op ← sign ops
  let right ← operand
  combine op left right

/-- Operands joined by operators of one rank. -/
def chained (ops : List Op) (operand : Parser Expr) : Parser Expr := do
  let first ← operand
  chain (step ops operand) first

def group (inner : Parser Expr) : Parser Expr := do
  blanks
  word "("
  let e ← inner
  blanks
  word ")"
  return e

def factor (inner : Parser Expr) : Parser Expr := orElse literal (group inner)

/-- Factors joined by `*` and `/`. -/
def product (inner : Parser Expr) : Parser Expr := chained [.mul, .div] (factor inner)

/-- Products joined by `+` and `-`. -/
def sum (inner : Parser Expr) : Parser Expr := chained [.add, .sub] (product inner)

/-- A formula with at most `maxDepth` groups inside one another. -/
def formula : Parser Expr := sum (within .formula sum maxDepth)

end ArithTree.Formula
