import ArithTree.Text.White

/-!
# Tokens

A source falls into runs of characters that belong together. A parenthesis and a white character
each make a run of their own; all other characters join their neighbours, so such a run is a
maximal word. White runs are dropped and every other run is a token. Balance plays no part here.
-/

namespace ArithTree

/-- A lexical unit of an S-expression source. -/
inductive Token where
  | opening
  | closing
  | word (text : String)
  deriving DecidableEq, Repr

namespace Token

def text : Token → String
  | .opening => "("
  | .closing => ")"
  | .word text => text

def ofText (s : String) : Token :=
  if s = "(" then .opening else if s = ")" then .closing else .word s

@[simp] theorem text_ofText (s : String) : (ofText s).text = s := by
  unfold ofText
  split
  · simp_all [text]
  · split <;> simp_all [text]

/-- A character that can stand in a word. -/
def isPlain (c : Char) : Bool := !(c == '(' || c == ')' || Text.isWhite c)

/-- Two neighbours belong to one run if both can stand in a word. -/
def joined (a b : Char) : Bool := isPlain a && isPlain b

/-- The token of a run, or nothing for a white character. -/
def ofRun? (run : List Char) : Option Token :=
  if run.all Text.isWhite then none else some (ofText (String.ofList run))

/-- The tokens of a list of characters. -/
def scan (cs : List Char) : List Token :=
  (cs.splitBy joined).filterMap ofRun?

def ofSource (source : String) : List Token := scan source.toList

end Token

end ArithTree
