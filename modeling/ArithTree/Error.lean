/-!
# Errors

Why a text, a form or an expression is refused. An error is a cause with the data its message
needs; `message` is the only place that words it, and `kind` sorts the causes into five classes.
-/

namespace ArithTree

/-- The written styles that have a grammar over characters: infix formulas, English phrases and
constructor calls. -/
inductive Style where
  | formula
  | phrase
  | call
  deriving DecidableEq, Repr

namespace Style

/-- The word for the style in a message. -/
def name : Style → String
  | .formula => "infix"
  | .phrase => "phrase"
  | .call => "constructor"

/-- The word for an expression of the style that stands inside another one. -/
def inner : Style → String
  | .formula => "expression"
  | .phrase => "phrase"
  | .call => "constructor"

end Style

/-- Something that a grammar would have accepted. -/
inductive Expected where
  | word (text : String)
  | digit
  | integer
  | nested (style : Style)
  | endOfText
  deriving DecidableEq, Repr

/-- The text of an expectation: words stand in double quotes. -/
def Expected.text : Expected → String
  | .word w => "\"" ++ w ++ "\""
  | .digit => "['0' ..= '9']"
  | .integer => "integer literal"
  | .nested style => "nested " ++ style.inner
  | .endOfText => "EOF"

/-- A place in a text, line and column counted from one. -/
structure Place where
  line : Nat
  column : Nat
  deriving DecidableEq, Repr

/-- The cause of a refusal. -/
inductive Error where
  /-- More than `maxDepth` levels. -/
  | tooDeep
  /-- The tokens end inside a list, or there are none. -/
  | unexpectedEnd
  /-- A closing parenthesis where a form should start. -/
  | unexpectedClose
  /-- A form without a head. -/
  | emptyForm
  /-- A text outside its grammar, with everything that could have stood at the place. -/
  | unreadable (style : Style) (place : Place) (expected : List Expected)
  /-- An atom, written `atom`, where a list should stand. -/
  | notForm (atom : String)
  /-- A form, written `form`, where an integer should stand. -/
  | notInteger (form : String)
  /-- A node handle of another owner. -/
  | foreignOperand
  /-- No operator `name` takes `arity` operands. -/
  | unknownOperator (name : String) (arity : Nat)
  | divisionByZero
  /-- A result outside the signed 64-bit range. -/
  | overflow
  deriving DecidableEq, Repr

namespace Error

inductive Kind where
  | malformed
  | mismatch
  | operator
  | zeroDivisor
  | overflow
  deriving DecidableEq, Repr

def kind : Error → Kind
  | .tooDeep | .unexpectedEnd | .unexpectedClose | .emptyForm | .unreadable .. => .malformed
  | .notForm _ | .notInteger _ | .foreignOperand => .mismatch
  | .unknownOperator .. => .operator
  | .divisionByZero => .zeroDivisor
  | .overflow => .overflow

/-- The alternatives of a list in words: nothing to name, the only one, or one of several. -/
def alternatives : List String → String
  | [] => "<unreported>"
  | [only] => only
  | several => "one of " ++ ", ".intercalate several

def placeText (place : Place) : String :=
  toString place.line ++ ":" ++ toString place.column

def message : Error → String
  | .tooDeep => "syntax error: nesting too deep"
  | .unexpectedEnd => "syntax error: unexpected EOF"
  | .unexpectedClose => "syntax error: unexpected )"
  | .emptyForm => "syntax error: empty form ()"
  | .unreadable style place expected =>
    "syntax error: failed to parse " ++ style.name ++ ": error at " ++ placeText place
      ++ ": expected " ++ alternatives (expected.map Expected.text)
  | .notForm atom => "type mismatch: expected a form, found atom `" ++ atom ++ "`"
  | .notInteger form => "type mismatch: number expects an integer, found `" ++ form ++ "`"
  | .foreignOperand => "type mismatch: operand is not a node of this expression"
  | .unknownOperator name arity =>
    "unknown operator `" ++ name ++ "` with " ++ toString arity ++ " operand(s)"
  | .divisionByZero => "division by zero"
  | .overflow => "integer overflow"

end Error

end ArithTree
