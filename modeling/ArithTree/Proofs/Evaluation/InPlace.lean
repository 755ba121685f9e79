import ArithTree.Arena

/-!
# Evaluation in place

`Node.evalAt` goes through an array of nodes instead of a tree. Where there is a tree it gives the
value of the tree, and errors escape in the same order. So what is known of the values of expressions
holds where they are evaluated in their arenas (`Arena.evalAt_root`) and where a part of an unfinished
draft is.
-/

namespace ArithTree

theorem Node.evalAt_eq {nodes : Array Node} {i : Nat} {t : Tree} (table : OpTable)
    (h : treeAt? nodes i = some t) : evalAt table nodes i = t.eval table := by
  induction t generalizing i with
  | lit v =>
    rw [evalAt, treeAt?_eq_lit.1 h]
    rfl
  | node op t u iht ihu =>
    obtain ⟨l, r, hn, hlt, ht, hu⟩ := treeAt?_eq_node.1 h
    rw [evalAt, hn]
    simp only [if_pos hlt, iht ht, ihu hu]
    cases op <;> rfl

theorem Arena.evalAt_root (a : Arena) (table : OpTable) :
    Node.evalAt table a.nodes a.root = a.expr.evalIn table :=
  Node.evalAt_eq table a.treeAt?_root

end ArithTree
