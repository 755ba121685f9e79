import ArithTree.Grammar.Parser

/-!
# The grammar of phrases

A phrase is a literal or `the NOUN of PHRASE and PHRASE`. The noun fixes the operator, and each
`and` belongs to the innermost phrase that still lacks one, so no parentheses are needed.
-/

namespace ArithTree.Phrase

open ArithTree.Parser

def noun : Parser Op :=
  oneOf (Op.all.map fun op => do
    word op.noun
    return op)

/-- A literal, or the article before what `inner` reads. -/
def operand (inner : Parser Expr) : Parser Expr :=
  orElse
    (do
      blanks
      word "the"
      blanks1
      inner)
    literal

/-- What follows the article: a noun and its two operands. -/
def binary (inner : Parser Expr) : Parser Expr := do
  let op ← noun
  blanks1
  word "of"
  blanks1
  let left ← operand inner
  blanks1
  word "and"
  blanks1
  let right ← operand inner
  combine op left right

/-- A phrase with at most `maxDepth` articles open at once. -/
def phrase : Parser Expr := operand (within .phrase binary maxDepth)

end ArithTree.Phrase
