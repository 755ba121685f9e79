import ArithTree.Binary64.Reading
import ArithTree.Binary64.Shortest

/-!
# Forms

S-expressions before any meaning is given to them: atoms, and lists of forms. An atom is an
integer if it can be, else a real, else a symbol; `Atom.ofText` takes that decision. A form is
written with one space between the items of a list.
-/

namespace ArithTree

/-- A form without parts. -/
inductive Atom where
  | int (value : Int64)
  | real (value : Binary64)
  | symbol (name : String)
  deriving DecidableEq, Repr

namespace Atom

/-- The atom that a text spells. -/
def ofText (word : String) : Atom :=
  match Numeral.readInt64? word.toList with
  | some i => .int i
  | none =>
    match Binary64.read? word.toList with
    | some r => .real r
    | none => .symbol word

def text : Atom → List Char
  | .int i => Numeral.ofInt64 i
  | .real r => r.text
  | .symbol name => name.toList

end Atom

/-- An atom or a list of forms. -/
inductive Form where
  | atom (value : Atom)
  | list (items : List Form)
  deriving Repr

namespace Form

mutual

def text : Form → List Char
  | .atom a => a.text
  | .list items => '(' :: (textOfItems items ++ [')'])

/-- The texts of forms with a space between them. -/
def textOfItems : List Form → List Char
  | [] => []
  | [last] => last.text
  | item :: next :: rest => item.text ++ ' ' :: textOfItems (next :: rest)

end

/-- The text of a form as it stands in messages. -/
def display (f : Form) : String := String.ofList f.text

end Form

end ArithTree
