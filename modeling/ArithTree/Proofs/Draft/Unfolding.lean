import ArithTree.Proofs.Arena.Listing
import ArithTree.Proofs.Evaluation.InPlace

/-!
# Unfolding drafts

The nodes of a draft are a graph: a node can be an operand more than once, or not at all.
`Node.Unfolds` says which tree the graph unfolds to below a node; below a node that a handle names
there is exactly one (`Holds.unfolds_iff`). Extraction makes this tree, with one node for each of
its own, and what is known of the node in the draft goes over to it: the recorded depth, and the
outcome of every evaluation in place (`extract_unfolds`).
-/

namespace ArithTree

/-- The tree that the graph of some nodes unfolds to below one of them. An operator stands over what
its operands unfold to, each of them once more. -/
inductive Node.Unfolds (nodes : Array Node) : Nat → Tree → Prop
  | lit {i : Nat} {v : Int64} : nodes[i]? = some (.lit v) → Unfolds nodes i (.lit v)
  | branch {i l r : Nat} {op : Op} {t u : Tree} : nodes[i]? = some (.branch op l r) →
    Unfolds nodes l t → Unfolds nodes r u → Unfolds nodes i (.node op t u)

namespace Node

variable {nodes : Array Node} {i : Nat} {t u : Tree}

theorem Unfolds.unique (h : Unfolds nodes i t) (h' : Unfolds nodes i u) : t = u := by
  induction h generalizing u with
  | lit hn =>
    cases h' with
    | lit hn' =>
      rw [hn] at hn'
      cases hn'
      rfl
    | branch hn' _ _ =>
      rw [hn] at hn'
      cases hn'
  | branch hn _ _ ihl ihr =>
    cases h' with
    | lit hn' =>
      rw [hn] at hn'
      cases hn'
    | branch hn' hl hr =>
      rw [hn] at hn'
      cases hn'
      rw [ihl hl, ihr hr]

theorem unfolds_of_treeAt? (h : treeAt? nodes i = some t) : Unfolds nodes i t := by
  induction t generalizing i with
  | lit v => exact .lit (treeAt?_eq_lit.1 h)
  | node op t u iht ihu =>
    obtain ⟨l, r, hn, -, ht, hu⟩ := treeAt?_eq_node.1 h
    exact .branch hn (iht ht) (ihu hu)

end Node

namespace Draft

/-- The nodes below a node that a handle names unfold to the tree of the handle and to no other. -/
theorem Holds.unfolds_iff {d : Draft} {h : Handle} {t u : Tree} (ht : d.Holds h t) :
    Node.Unfolds d.nodes h.index u ↔ u = t := by
  have hunfolds : Node.Unfolds d.nodes h.index t := Node.unfolds_of_treeAt? ht.2
  constructor
  · exact fun hu => hu.unique hunfolds
  · rintro rfl
    exact hunfolds

/-- **Extraction unfolds the draft.** Whatever was asked of a draft, every node of it can be
extracted. The expression has the one tree that the nodes below unfold to, its arena lists the nodes
of this tree and no others, its depth is the recorded one, and every table of operations evaluates it
as it evaluates the node in the draft. -/
theorem extract_unfolds (owner : Nat) (requests : List Request) (h : Handle)
    (howns : (({ owner } : Draft).serveAll requests).owns h) :
    let d := ({ owner } : Draft).serveAll requests
    ∃ a, d.extract h = .ok a ∧
      (∀ t, Node.Unfolds d.nodes h.index t ↔ t = a.expr.tree) ∧
      a.nodes = (a.expr.tree.layout 0).toArray ∧ a.nodes.size = a.expr.size ∧
      d.depths[h.index]? = some a.expr.depth ∧
      ∀ table, Node.evalAt table d.nodes h.index = a.expr.evalIn table ∧
        Node.evalAt table a.nodes a.root = a.expr.evalIn table := by
  intro d
  have hs : d.Sound := ((sound_empty owner).serveAll requests).1
  obtain ⟨t, ht⟩ := hs.holds howns
  let e : Expr := ⟨t, hs.depth_le ht⟩
  refine ⟨.ofExpr e, Holds.extract (e := e) ht, fun u => ht.unfolds_iff, Arena.nodes_ofExpr e, ?_,
    hs.depths_eq ht, fun table => ⟨?_, Arena.evalAt_root _ table⟩⟩
  · rw [Arena.nodes_ofExpr, List.size_toArray, Tree.length_layout]
    rfl
  · exact Node.evalAt_eq table ht.2

/-- A square squared: three nodes unfold to seven. -/
theorem extract_unfolds_square :
    let d := ({ owner := 0 } : Draft).serveAll
      [.lit 2, .combine .mul ⟨0, 0⟩ ⟨0, 0⟩, .lit 7, .combine .mul ⟨0, 1⟩ ⟨0, 1⟩]
    d.owns ⟨0, 3⟩ ∧ ∃ a, d.extract ⟨0, 3⟩ = .ok a ∧ a.nodes.size = 7 ∧
      Node.evalAt .standard d.nodes 3 = .ok 16 ∧ a.expr.eval = .ok 16 := by
  intro d
  have howns : d.owns ⟨0, 3⟩ := rfl
  let square := Tree.node .mul (.lit 2) (.lit 2)
  have hlit : Node.Unfolds d.nodes 0 (.lit 2) := .lit rfl
  have hsquare : Node.Unfolds d.nodes 1 square := .branch rfl hlit hlit
  obtain ⟨a, ha, hunfolds, -, hsize, -, heval⟩ := extract_unfolds 0 _ ⟨0, 3⟩ howns
  have htree : .node .mul square square = a.expr.tree := (hunfolds _).1 (.branch rfl hsquare hsquare)
  have hvalue : a.expr.eval = .ok 16 := by
    rw [Expr.eval, Expr.evalIn, ← htree]
    rfl
  refine ⟨howns, a, ha, ?_, (heval _).1.trans hvalue, hvalue⟩
  rw [hsize, Expr.size, ← htree]
  rfl

end Draft

end ArithTree
