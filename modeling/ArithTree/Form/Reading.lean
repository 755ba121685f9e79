import ArithTree.Error
import ArithTree.Expr
import ArithTree.Form.Basic
import ArithTree.Form.Token

/-!
# Reading forms

The reader takes the first form off a list of tokens and says how many tokens it used; what comes
after them does not matter. It keeps a stack with the items of every open list, the innermost list
first, and refuses to open more than `maxDepth` lists.
-/

namespace ArithTree.Form

/-- A form and the number of tokens it was read from. -/
structure Reading where
  form : Form
  used : Nat
  deriving Repr

/-- Reads on inside open lists. `items` holds the innermost list and `outer` the lists around it,
each in reverse; `used` counts the tokens so far. -/
def readOpen (items : List Form) (outer : List (List Form)) (used : Nat) :
    List Token → Except Error Reading
  | [] => .error .unexpectedEnd
  | .opening :: tokens =>
    if outer.length + 1 < maxDepth then readOpen [] (items :: outer) (used + 1) tokens
    else .error .tooDeep
  | .closing :: tokens =>
    let closed := Form.list items.reverse
    match outer with
    | [] => .ok ⟨closed, used + 1⟩
    | next :: outer => readOpen (closed :: next) outer (used + 1) tokens
  | .word w :: tokens => readOpen (.atom (.ofText w) :: items) outer (used + 1) tokens

/-- The first form of a list of tokens. -/
def read : List Token → Except Error Reading
  | [] => .error .unexpectedEnd
  | .closing :: _ => .error .unexpectedClose
  | .word w :: _ => .ok ⟨.atom (.ofText w), 1⟩
  | .opening :: tokens => readOpen [] [] 1 tokens

end ArithTree.Form
