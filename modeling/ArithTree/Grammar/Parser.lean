import ArithTree.Expr
import ArithTree.Grammar.Cursor
import ArithTree.Grammar.Frontier
import ArithTree.Numeral

/-!
# Parsers

A parser maps a cursor to an outcome and to the frontier of what it looked for in vain. It reports
also when it succeeds: an optional sign that is absent or the end of a repetition may be the place
where the whole text goes wrong. Nesting too deep is an outcome of its own, which no choice and no
repetition recovers from. Blanks are skipped without a report.
-/

namespace ArithTree

inductive Outcome (α : Type) where
  | done (value : α) (next : Cursor)
  | refused
  | tooDeep

/-- An outcome with the frontier behind it. -/
structure Reply (α : Type) where
  outcome : Outcome α
  frontier : Frontier

/-- The reply with an earlier frontier joined in. -/
def Reply.after {α : Type} (earlier : Frontier) (r : Reply α) : Reply α :=
  ⟨r.outcome, earlier.merge r.frontier⟩

@[simp] theorem Reply.outcome_after {α : Type} (earlier : Frontier) (r : Reply α) :
    (r.after earlier).outcome = r.outcome := rfl

def Parser (α : Type) : Type := Cursor → Reply α

namespace Parser

variable {α β : Type}

/-- Succeeds without a look at the text. -/
protected def pure (a : α) : Parser α := fun c => ⟨.done a c, none⟩

protected def bind (p : Parser α) (f : α → Parser β) : Parser β := fun c =>
  match p c with
  | ⟨.done a next, seen⟩ => (f a next).after seen
  | ⟨.refused, seen⟩ => ⟨.refused, seen⟩
  | ⟨.tooDeep, seen⟩ => ⟨.tooDeep, seen⟩

instance : Monad Parser where
  pure := Parser.pure
  bind := Parser.bind

theorem bind_apply (p : Parser α) (f : α → Parser β) (c : Cursor) :
    (p >>= f) c =
      match p c with
      | ⟨.done a next, seen⟩ => (f a next).after seen
      | ⟨.refused, seen⟩ => ⟨.refused, seen⟩
      | ⟨.tooDeep, seen⟩ => ⟨.tooDeep, seen⟩ := rfl

/-- Refuses without a report. -/
def refuse : Parser α := fun _ => ⟨.refused, none⟩

/-- Refuses and reports what should have stood here. -/
def expected (e : Expected) : Parser α := fun c => ⟨.refused, some ⟨c.left, [e]⟩⟩

/-- Gives up because of the nesting. -/
def tooDeep : Parser α := fun _ => ⟨.tooDeep, none⟩

/-- The second parser where the first one refuses. -/
def orElse (p q : Parser α) : Parser α := fun c =>
  match p c with
  | ⟨.refused, seen⟩ => (q c).after seen
  | reply => reply

/-- The first parser of a list that does not refuse. -/
def oneOf (ps : List (Parser α)) : Parser α := ps.foldr orElse refuse

/-- Whether a character may stand between the parts of a text. -/
def isBlank (c : Char) : Bool := c == ' ' || c == '\t' || c == '\r' || c == '\n'

def blanks : Parser Unit := fun c => ⟨.done () (c.skip isBlank), none⟩

def blanks1 : Parser Unit := fun c =>
  if (c.run isBlank).isEmpty then ⟨.refused, none⟩ else ⟨.done () (c.skip isBlank), none⟩

def word (w : String) : Parser Unit := fun c =>
  if w.toList.isPrefixOf c.rest then ⟨.done () (c.advance w.toList.length), none⟩
  else ⟨.refused, some ⟨c.left, [.word w]⟩⟩

/-- One or more digits. One more digit could always follow, and is reported as expected. -/
def digits : Parser (List Char) := fun c =>
  let run := c.run Char.isDigit
  let next := c.skip Char.isDigit
  let seen := some ⟨next.left, [.digit]⟩
  if run.isEmpty then ⟨.refused, seen⟩ else ⟨.done run next, seen⟩

/-- Whether a given word stands here; it is skipped. -/
def optional (w : String) : Parser Bool :=
  orElse (do word w; return true) (return false)

/-- Blanks, an optional minus sign and digits of a 64-bit integer. -/
def integer : Parser Int64 := do
  blanks
  let negative ← optional "-"
  let run ← digits
  match narrow? (Numeral.signed negative (Numeral.toNat run)) with
  | some v => return v
  | none => expected .integer

def literal : Parser Expr := do
  return .number (← integer)

/-- The operator over two operands, within the depth of an expression. -/
def combine (op : Op) (l r : Expr) : Parser Expr :=
  match Expr.combine op l r with
  | .ok e => return e
  | .error _ => tooDeep

def endOfText : Parser Unit := fun c =>
  if c.rest.isEmpty then ⟨.done () c, none⟩ else ⟨.refused, some ⟨c.left, [.endOfText]⟩⟩

/-- The body of a construct that may nest in itself, with `levels` more levels open to it. -/
def within (style : Style) (body : Parser α → Parser α) : (levels : Nat) → Parser α
  | 0 => tooDeep
  | levels + 1 => orElse (body (within style body levels)) (expected (.nested style))

/-- Extends a value by `step` as long as that gets any further in the text. -/
def chain (step : α → Parser α) (value : α) (c : Cursor) : Reply α :=
  match step value c with
  | ⟨.done value' next, seen⟩ =>
    if next.left < c.left then (chain step value' next).after seen else ⟨.done value c, seen⟩
  | ⟨.refused, seen⟩ => ⟨.done value c, seen⟩
  | ⟨.tooDeep, seen⟩ => ⟨.tooDeep, seen⟩
termination_by c.left

end Parser

end ArithTree
