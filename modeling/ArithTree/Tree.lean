import ArithTree.Op

/-!
# Expression trees

Abstract arithmetic expressions of any depth: signed 64-bit literals joined by binary operators.
Depth and size count nodes, so a literal has both equal to one.
-/

namespace ArithTree

inductive Tree where
  | lit (value : Int64)
  | node (op : Op) (left right : Tree)
  deriving DecidableEq, Repr

namespace Tree

/-- The number of nodes on the longest path from the root to a literal. -/
def depth : Tree → Nat
  | .lit _ => 1
  | .node _ l r => 1 + max l.depth r.depth

def size : Tree → Nat
  | .lit _ => 1
  | .node _ l r => l.size + r.size + 1

@[simp] theorem depth_lit (v : Int64) : (lit v).depth = 1 := rfl

@[simp] theorem depth_node (op : Op) (l r : Tree) :
    (node op l r).depth = 1 + max l.depth r.depth := rfl

@[simp] theorem size_lit (v : Int64) : (lit v).size = 1 := rfl

@[simp] theorem size_node (op : Op) (l r : Tree) : (node op l r).size = l.size + r.size + 1 := rfl

theorem depth_pos (t : Tree) : 0 < t.depth := by
  cases t <;> simp only [depth] <;> omega

theorem size_pos (t : Tree) : 0 < t.size := by
  cases t <;> simp only [size] <;> omega

end Tree

end ArithTree
