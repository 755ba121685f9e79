/-!
# Operators

The four binary operators and the word that each written form uses for them: a keyword in
S-expressions, a sign in infix formulas, a noun in phrases, a constructor name in calls.
`ofKeyword?_eq_some_iff` says that a keyword names exactly one operator.
-/

namespace ArithTree

inductive Op where
  | add
  | sub
  | mul
  | div
  deriving DecidableEq, Repr

namespace Op

/-- Every operator, in the order of declaration. -/
def all : List Op := [.add, .sub, .mul, .div]

/-- The head word of the operator in an S-expression. -/
def keyword : Op → String
  | .add => "add"
  | .sub => "sub"
  | .mul => "mul"
  | .div => "div"

/-- The constructor name of the operator in a call. -/
def constructorName : Op → String
  | .add => "Add"
  | .sub => "Sub"
  | .mul => "Mul"
  | .div => "Div"

/-- The sign of the operator in a formula. -/
def sign : Op → String
  | .add => "+"
  | .sub => "-"
  | .mul => "*"
  | .div => "/"

/-- The noun of the operator in a phrase. -/
def noun : Op → String
  | .add => "sum"
  | .sub => "difference"
  | .mul => "product"
  | .div => "quotient"

/-- Addition and subtraction bind looser than multiplication and division. -/
def isAdditive : Op → Bool
  | .add | .sub => true
  | .mul | .div => false

/-- The operator that a keyword names. -/
def ofKeyword? (word : String) : Option Op :=
  all.find? fun op => op.keyword == word

/-! ## Words name operators -/

theorem mem_all (op : Op) : op ∈ all := by
  cases op <;> simp [all]

theorem keyword_inj {a b : Op} : a.keyword = b.keyword ↔ a = b := by
  cases a <;> cases b <;> decide

@[simp] theorem ofKeyword?_keyword (op : Op) : ofKeyword? op.keyword = some op := by
  cases op <;> decide

theorem ofKeyword?_eq_some_iff {word : String} {op : Op} :
    ofKeyword? word = some op ↔ word = op.keyword := by
  refine ⟨fun h => ?_, fun h => h ▸ ofKeyword?_keyword op⟩
  have := List.find?_some h
  exact (by simpa using this : op.keyword = word).symm

end Op

end ArithTree
