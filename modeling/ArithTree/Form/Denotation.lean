import ArithTree.Form.Reading

/-!
# Forms as expressions

A form denotes an expression in one way only: `(number i)` is a literal and `(keyword l r)` an
operator over two operands. Every other shape is refused with the cause that fits it best, and
forms nested beyond `maxDepth` are refused before their shape is looked at.
-/

namespace ArithTree

namespace Form

/-- The head word of a literal. -/
def numberWord : String := "number"

/-- The refusal of a list by its head and the number of its arguments. -/
def unknown (head : Form) (args : List Form) : Except Error Expr :=
  .error (.unknownOperator head.display args.length)

/-- The literal with the arguments `args`. -/
def toNumber (head : Form) : List Form → Except Error Expr
  | [.atom (.int i)] => .ok (.number i)
  | [other] => .error (.notInteger other.display)
  | args => unknown head args

/-- The expression of a form, with `levels` levels left for it. The left operand is
looked at before the right one. -/
def toExprWithin : (levels : Nat) → Form → Except Error Expr
  | 0, _ => .error .tooDeep
  | _ + 1, .atom a => .error (.notForm (String.ofList a.text))
  | _ + 1, .list [] => .error .emptyForm
  | levels + 1, .list (head :: args) =>
    match head with
    | .atom (.symbol word) =>
      if word = numberWord then toNumber head args
      else
        match Op.ofKeyword? word, args with
        | some op, [l, r] => do
          let left ← toExprWithin levels l
          let right ← toExprWithin levels r
          Expr.combine op left right
        | _, _ => unknown head args
    | _ => unknown head args

def toExpr (form : Form) : Except Error Expr := toExprWithin maxDepth form

end Form

/-- The expression that the first form of a source denotes. -/
def Expr.ofSexpr (source : String) : Except Error Expr := do
  let reading ← Form.read (Token.ofSource source)
  reading.form.toExpr

end ArithTree
