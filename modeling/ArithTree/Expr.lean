import ArithTree.Error
import ArithTree.Tree

/-!
# Expressions

An expression is a tree of at most `maxDepth` levels. The bound is part of the type, so whatever
reads, grows or joins expressions meets it in one of two places: `ofTree` takes a whole tree and
`combine` puts an operator over two expressions. Both fail with `Error.tooDeep` and with nothing
else, and `ofTree_eq_ok` and `combine_eq_ok` say exactly when they succeed.
-/

namespace ArithTree

/-- The greatest depth of an expression, counted in nodes. -/
def maxDepth : Nat := 100

/-- A tree of bounded depth. -/
structure Expr where
  tree : Tree
  depth_le : tree.depth ≤ maxDepth
  deriving DecidableEq

namespace Expr

@[ext] theorem ext {a b : Expr} (h : a.tree = b.tree) : a = b := by
  cases a; cases b; cases h; rfl

def depth (e : Expr) : Nat := e.tree.depth

def size (e : Expr) : Nat := e.tree.size

theorem depth_lit_le (value : Int64) : (Tree.lit value).depth ≤ maxDepth := by
  simp [maxDepth]

def number (value : Int64) : Expr := ⟨.lit value, depth_lit_le value⟩

def ofTree (t : Tree) : Except Error Expr :=
  if h : t.depth ≤ maxDepth then .ok ⟨t, h⟩ else .error .tooDeep

/-- The operator over two expressions. -/
def combine (op : Op) (l r : Expr) : Except Error Expr :=
  ofTree (.node op l.tree r.tree)

/-! ## When a tree is an expression -/

@[simp] theorem tree_number (v : Int64) : (number v).tree = .lit v := rfl

theorem ofTree_eq_ok {t : Tree} {e : Expr} : ofTree t = .ok e ↔ e.tree = t := by
  unfold ofTree
  split
  · simp [Expr.ext_iff, eq_comm]
  · rename_i h
    simp only [reduceCtorEq, false_iff]
    rintro rfl
    exact h e.depth_le

theorem ofTree_eq_error {t : Tree} {err : Error} :
    ofTree t = .error err ↔ maxDepth < t.depth ∧ err = .tooDeep := by
  unfold ofTree
  split
  · simp only [reduceCtorEq, false_iff]
    omega
  · rename_i h
    simp only [Except.error.injEq, Nat.lt_of_not_le h, true_and, eq_comm]

@[simp] theorem ofTree_tree (e : Expr) : ofTree e.tree = .ok e :=
  ofTree_eq_ok.2 rfl

theorem combine_eq_ok {op : Op} {l r e : Expr} :
    combine op l r = .ok e ↔ e.tree = .node op l.tree r.tree :=
  ofTree_eq_ok

theorem combine_eq_error {op : Op} {l r : Expr} {err : Error} :
    combine op l r = .error err ↔ maxDepth < 1 + max l.depth r.depth ∧ err = .tooDeep :=
  ofTree_eq_error

end Expr

end ArithTree
