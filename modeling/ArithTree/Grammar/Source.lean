import ArithTree.Grammar.Call
import ArithTree.Grammar.Formula
import ArithTree.Grammar.Phrase
import ArithTree.Text.Place

/-!
# Reading whole texts

A text is an expression in one style with blanks around it and nothing else. If it is refused, the
frontier becomes a place in the text and the sorted list of what could have stood there; nesting
too deep comes before every other complaint.
-/

namespace ArithTree

namespace Frontier

/-- The place of a frontier in the text `cs`; without any report, the start of the text. -/
def place (cs : List Char) : Frontier → Place
  | none => Place.after []
  | some r => Place.after (cs.take (cs.length - r.left))

/-- What was expected there, sorted by text. -/
def expectations : Frontier → List Expected
  | none => []
  | some r => r.expected.mergeSort fun a b => decide (a.text ≤ b.text)

end Frontier

namespace Parser

variable {α : Type}

/-- A value with blanks after it and then the end of the text. -/
def whole (p : Parser α) : Parser α := do
  let a ← p
  blanks
  endOfText
  return a

def read (p : Parser α) (style : Style) (cs : List Char) : Except Error α :=
  match p.whole (.start cs) with
  | ⟨.done a _, _⟩ => .ok a
  | ⟨.tooDeep, _⟩ => .error .tooDeep
  | ⟨.refused, frontier⟩ =>
    .error (.unreadable style (frontier.place cs) frontier.expectations)

end Parser

def Style.grammar : Style → Parser Expr
  | .formula => Formula.formula
  | .phrase => Phrase.phrase
  | .call => Call.call

namespace Expr

/-- The expression that a text denotes in a style. -/
def ofText (style : Style) (source : String) : Except Error Expr :=
  style.grammar.read style source.toList

def ofFormula (source : String) : Except Error Expr := ofText .formula source

def ofPhrase (source : String) : Except Error Expr := ofText .phrase source

def ofCall (source : String) : Except Error Expr := ofText .call source

end Expr

end ArithTree
