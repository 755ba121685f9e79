import ArithTree.Grammar.Parser

/-!
# The grammar of calls

A call is `Number(INT)` or the constructor name of an operator with two calls in parentheses.
-/

namespace ArithTree.Call

open ArithTree.Parser

def name : Parser Op :=
  oneOf (Op.all.map fun op => do
    word op.constructorName
    return op)

def number : Parser Expr := do
  blanks
  word "Number"
  blanks
  word "("
  let e ← literal
  blanks
  word ")"
  return e

/-- The call of an operator, its operands read by `inner`. -/
def operator (inner : Parser (Expr × Expr)) : Parser Expr := do
  blanks
  let op ← name
  blanks
  word "("
  let (left, right) ← inner
  blanks
  word ")"
  combine op left right

def either (inner : Parser (Expr × Expr)) : Parser Expr := orElse number (operator inner)

/-- Two calls with a comma between them. -/
def operands (inner : Parser (Expr × Expr)) : Parser (Expr × Expr) := do
  let left ← either inner
  blanks
  word ","
  let right ← either inner
  return (left, right)

/-- A call with at most `maxDepth` operand lists open at once. -/
def call : Parser Expr := either (within .call operands maxDepth)

end ArithTree.Call
