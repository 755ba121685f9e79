import ArithTree.Node

/-!
# Arenas

An arena is an array of nodes with a root, together with the expression below the root. `ofNodes`
is the only test of nodes: it succeeds exactly if there is an expression below the root
(`ofNodes_eq_ok`). An arena may hold nodes that do not stand below the root; which of them are made
in this library is the subject of `ArithTree.Proofs.Arena.Compact`.
-/

namespace ArithTree

/-- Nodes with an expression below one of them. -/
structure Arena where
  nodes : Array Node
  root : Nat
  expr : Expr
  treeAt?_root : Node.treeAt? nodes root = some expr.tree

namespace Arena

@[ext] theorem ext {a b : Arena} (hn : a.nodes = b.nodes) (hr : a.root = b.root) : a = b := by
  obtain ⟨nodes, root, e, he⟩ := a
  obtain ⟨_, _, f, hf⟩ := b
  cases hn
  cases hr
  have htree : e.tree = f.tree := Option.some.inj (he.symm.trans hf)
  cases Expr.ext htree
  rfl

/-- Whether the expressions of two arenas are equal, found by going through the nodes of both. -/
def same (a b : Arena) : Bool := Node.sameAt a.nodes a.root b.nodes b.root

/-- The arena of some nodes, if there is an expression below the root. -/
def ofNodes (nodes : Array Node) (root : Nat) : Except Error Arena :=
  match h : Node.treeAt? nodes root with
  | none => .error .foreignOperand
  | some t => if ht : t.depth ≤ maxDepth then .ok ⟨nodes, root, ⟨t, ht⟩, h⟩ else .error .tooDeep

theorem ofNodes_eq_ok {nodes : Array Node} {root : Nat} {a : Arena} :
    ofNodes nodes root = .ok a ↔ a.nodes = nodes ∧ a.root = root := by
  unfold ofNodes
  constructor
  · intro h
    split at h
    · cases h
    · split at h
      · cases h
        exact ⟨rfl, rfl⟩
      · cases h
  · rintro ⟨rfl, rfl⟩
    have htree := a.treeAt?_root
    split
    · rename_i hnone
      rw [hnone] at htree
      cases htree
    · rename_i t hsome
      rw [hsome, Option.some_inj] at htree
      have ht : t.depth ≤ maxDepth := htree ▸ a.expr.depth_le
      rw [dif_pos ht, Except.ok.injEq]
      exact Arena.ext rfl rfl

end Arena

end ArithTree
