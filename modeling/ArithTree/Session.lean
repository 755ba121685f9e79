import ArithTree.Draft
import ArithTree.Dialect
import ArithTree.Evaluation

/-!
# Sessions

A session holds drafts, node handles and expressions, each numbered in the order of creation.
Drafts and expressions own their nodes, each under an owner of its own; only a clone shares the
owner of its expression. An expression keeps the arena that it was made in. A draft is used up by an
extraction, also when that fails. A step that fails creates nothing, and the session goes on.
-/

namespace ArithTree

/-- An expression in its arena and the owner of the nodes. -/
structure OwnedExpr where
  owner : Nat
  arena : Arena

def OwnedExpr.expr (x : OwnedExpr) : Expr := x.arena.expr

/-- The node of an expression that a handle names, with its index. -/
def OwnedExpr.node? (x : OwnedExpr) (h : Handle) : Option (Nat × Node) :=
  if h.owner = x.owner then x.arena.nodes[h.index]?.map (h.index, ·) else none

/-- The operand that stands at a position in the node that a handle names. -/
def OwnedExpr.operand? (x : OwnedExpr) (h : Handle) (position : Nat) : Option Handle := do
  let (_, n) ← x.node? h
  let index ← n.operands[position]?
  return ⟨x.owner, index⟩

/-- The state of a session. `owners` is the number of owners so far; a draft that is used up
leaves its place empty. -/
structure Session where
  owners : Nat := 0
  drafts : Array (Option Draft) := #[]
  handles : Array Handle := #[]
  exprs : Array OwnedExpr := #[]

namespace Session

/-- A request to a session. Drafts, nodes and expressions are given by number. -/
inductive Step where
  | newDraft
  | lit (draft : Nat) (value : Int64)
  | branch (draft : Nat) (op : Op) (left right : Nat)
  | copy (draft expr : Nat)
  | extract (draft root : Nat)
  | number (value : Int64)
  | combine (op : Op) (left right : Nat)
  | read (dialect : Dialect) (source : String)
  | clone (expr : Nat)
  | root (expr : Nat)
  | node (expr node : Nat)
  | operand (expr node position : Nat)
  | equal (left right : Nat)
  | eval (expr : Nat) (table : OpTable)
  | write (expr : Nat) (writing : Writing)
  | walk (expr : Nat)

inductive Answer where
  | draft (number : Nat)
  | handle (number index : Nat)
  | expr (number : Nat) (e : Expr)
  | node (entry : Option (Nat × Node))
  | equal (same : Bool)
  | value (v : Int64)
  | text (s : String)
  | nodes (entries : List (Nat × Node))

/-- Why a step gives nothing. -/
inductive Fault where
  | error (cause : Error)
  /-- The draft is used up. -/
  | usedUp
  /-- No draft, node, operand or expression has the number. -/
  | unknown

/-- The result of a step, and the session after it. -/
abbrev Result := Except Fault Answer × Session

/-- Goes on with a found value. -/
def withFound {α : Type} (s : Session) (found : Except Fault α) (f : α → Result) : Result :=
  match found with
  | .ok a => f a
  | .error fault => (.error fault, s)

def draft (s : Session) (number : Nat) : Except Fault Draft :=
  match s.drafts[number]? with
  | some (some d) => .ok d
  | some none => .error .usedUp
  | none => .error .unknown

def handle (s : Session) (number : Nat) : Except Fault Handle :=
  match s.handles[number]? with
  | some h => .ok h
  | none => .error .unknown

def expr (s : Session) (number : Nat) : Except Fault OwnedExpr :=
  match s.exprs[number]? with
  | some x => .ok x
  | none => .error .unknown

def addHandle (s : Session) (h : Handle) : Result :=
  (.ok (.handle s.handles.size h.index), { s with handles := s.handles.push h })

def addExpr (s : Session) (x : OwnedExpr) : Result :=
  (.ok (.expr s.exprs.size x.expr), { s with exprs := s.exprs.push x })

/-- Numbers an expression with an arena of its own, if there is one. -/
def addNew (s : Session) : Except Error Arena → Result
  | .ok a => addExpr { s with owners := s.owners + 1 } ⟨s.owners, a⟩
  | .error e => (.error (.error e), s)

/-- Puts a draft back that has served a request, and numbers the handle that it gave. -/
def addNode (s : Session) (number : Nat) : Except Error Handle × Draft → Result
  | (.ok h, d) => addHandle { s with drafts := s.drafts.setIfInBounds number (some d) } h
  | (.error e, _) => (.error (.error e), s)

/-- Leaves the place of a draft empty. -/
def useUp (s : Session) (number : Nat) : Session :=
  { s with drafts := s.drafts.setIfInBounds number none }

def step (s : Session) : Step → Result
  | .newDraft =>
    (.ok (.draft s.drafts.size),
      { s with
        owners := s.owners + 1
        drafts := s.drafts.push (some { owner := s.owners }) })
  | .lit d v => s.withFound (s.draft d) fun draft => s.addNode d (draft.serve (.lit v))
  | .branch d op l r =>
    s.withFound (s.draft d) fun draft =>
    s.withFound (s.handle l) fun left =>
    s.withFound (s.handle r) fun right => s.addNode d (draft.serve (.combine op left right))
  | .copy d x =>
    s.withFound (s.draft d) fun draft =>
    s.withFound (s.expr x) fun x => s.addNode d (draft.serve (.copy x.arena))
  | .extract d root =>
    s.withFound (s.draft d) fun draft =>
    s.withFound (s.handle root) fun h => (s.useUp d).addNew (draft.extract h)
  | .number v => s.addNew (.ok (.number v))
  | .combine op l r =>
    s.withFound (s.expr l) fun left =>
    s.withFound (s.expr r) fun right => s.addNew (Arena.combine op left.arena right.arena)
  | .read dialect source => s.addNew ((dialect.read source).bind Arena.ofRead)
  | .clone x => s.withFound (s.expr x) s.addExpr
  | .root x => s.withFound (s.expr x) fun x => s.addHandle ⟨x.owner, x.arena.root⟩
  | .node x n =>
    s.withFound (s.expr x) fun x =>
    s.withFound (s.handle n) fun h => (.ok (.node (x.node? h)), s)
  | .operand x n position =>
    s.withFound (s.expr x) fun x =>
    s.withFound (s.handle n) fun h =>
    match x.operand? h position with
    | some operand => s.addHandle operand
    | none => (.error .unknown, s)
  | .equal l r =>
    s.withFound (s.expr l) fun left =>
    s.withFound (s.expr r) fun right => (.ok (.equal (left.arena.same right.arena)), s)
  | .eval x table =>
    s.withFound (s.expr x) fun x =>
    match Node.evalAt table x.arena.nodes x.arena.root with
    | .ok v => (.ok (.value v), s)
    | .error e => (.error (.error e), s)
  | .write x writing =>
    s.withFound (s.expr x) fun x => (.ok (.text (x.expr.write writing)), s)
  | .walk x =>
    s.withFound (s.expr x) fun x => (.ok (.nodes (Node.walkAt x.arena.nodes x.arena.root)), s)

/-- The results of steps taken one after the other. -/
def run (s : Session) : List Step → List (Except Fault Answer) × Session
  | [] => ([], s)
  | first :: others =>
    let (result, s) := s.step first
    let (results, s) := s.run others
    (result :: results, s)

end Session

end ArithTree
