import ArithTree.Expr
import ArithTree.Numeral

/-!
# Written forms

The texts of a tree: S-expression, infix formula, English phrase and constructor call. They are
functions on trees of any depth; the versions on `Expr` return strings. Only formulas have a
choice, which operands stand in parentheses; `Grouping` names the two policies.
-/

namespace ArithTree

/-- Which operands of a formula stand in parentheses. -/
inductive Grouping where
  /-- Under `+` and `-` the additive operands, under `*` and `/` every operand but a literal. -/
  | faithful
  /-- Only additive operands under `*` and `/`. -/
  | sparing
  deriving DecidableEq, Repr

/-- Whether an operand whose own operator is `child` stands in parentheses under `parent`. -/
def Grouping.wraps : Grouping → (parent child : Op) → Bool
  | .faithful, parent, child => !parent.isAdditive || child.isAdditive
  | .sparing, parent, child => !parent.isAdditive && child.isAdditive

namespace Tree

/-- Whether an operand stands in parentheses under `parent`. -/
def wrapped (g : Grouping) (parent : Op) : Tree → Bool
  | .lit _ => false
  | .node child _ _ => g.wraps parent child

/-- A text, in parentheses if asked for. -/
def inParentheses (wrap : Bool) (cs : List Char) : List Char :=
  if wrap then '(' :: (cs ++ [')']) else cs

/-- The infix formula: `1 + 2 * 3`. -/
def formula (g : Grouping) : Tree → List Char
  | .lit v => Numeral.ofInt64 v
  | .node op l r =>
    inParentheses (l.wrapped g op) (l.formula g) ++ ' ' :: op.sign.toList ++
      ' ' :: inParentheses (r.wrapped g op) (r.formula g)

/-- The phrase: `the sum of 1 and 2`. -/
def phrase : Tree → List Char
  | .lit v => Numeral.ofInt64 v
  | .node op l r =>
    "the ".toList ++ op.noun.toList ++ " of ".toList ++ l.phrase ++ " and ".toList ++ r.phrase

/-- The S-expression: `(add (number 1) (number 2))`. -/
def sexpr : Tree → List Char
  | .lit v => "(number ".toList ++ Numeral.ofInt64 v ++ [')']
  | .node op l r =>
    '(' :: op.keyword.toList ++ ' ' :: l.sexpr ++ ' ' :: r.sexpr ++ [')']

/-- The constructor call: `Add(Number(1), Number(2))`. -/
def call : Tree → List Char
  | .lit v => "Number(".toList ++ Numeral.ofInt64 v ++ [')']
  | .node op l r =>
    op.constructorName.toList ++ '(' :: l.call ++ ", ".toList ++ r.call ++ [')']

section
variable (v : Int64) (op : Op) (l r : Tree)

theorem phrase_lit : (lit v).phrase = Numeral.ofInt64 v := rfl

theorem phrase_node : (node op l r).phrase =
    "the ".toList ++ op.noun.toList ++ " of ".toList ++ l.phrase ++ " and ".toList ++ r.phrase := rfl

theorem sexpr_lit : (lit v).sexpr = "(number ".toList ++ Numeral.ofInt64 v ++ [')'] := rfl

theorem sexpr_node : (node op l r).sexpr =
    '(' :: op.keyword.toList ++ ' ' :: l.sexpr ++ ' ' :: r.sexpr ++ [')'] := rfl

theorem call_lit : (lit v).call = "Number(".toList ++ Numeral.ofInt64 v ++ [')'] := rfl

theorem call_node : (node op l r).call =
    op.constructorName.toList ++ '(' :: l.call ++ ", ".toList ++ r.call ++ [')'] := rfl

end

end Tree

namespace Expr

def formula (e : Expr) (g : Grouping) : String := String.ofList (e.tree.formula g)

def phrase (e : Expr) : String := String.ofList e.tree.phrase

def sexpr (e : Expr) : String := String.ofList e.tree.sexpr

def call (e : Expr) : String := String.ofList e.tree.call

end Expr

end ArithTree
