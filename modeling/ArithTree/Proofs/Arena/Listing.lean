import ArithTree.Proofs.Draft.Sound

/-!
# How arenas list their expressions

Every way to make an arena lists the nodes of the expression as `Tree.layout` does, and nothing else.
Nodes that are added one by one do so by `nodes_addTree`. An operator over two copies, used as it was
drafted, leaves the same nodes as its tree added at once (`combine_eq`), and an extraction leaves
nothing of its draft but the tree below the root (`extract_eq`). So all of them end in
`Arena.ofExpr`, and which expression it is, and the only refusals, are those of `Expr.ofTree`.
-/

namespace ArithTree

namespace Arena

/-- The arena that lists the nodes of an expression. -/
def ofExpr (e : Expr) : Arena :=
  let added := ({ owner := 0 } : Draft).addTree e.tree
  ⟨added.2.nodes, added.1.index, e, Draft.treeAt?_addTree _ _⟩

@[simp] theorem nodes_ofExpr (e : Expr) : (ofExpr e).nodes = (e.tree.layout 0).toArray := by
  simp [ofExpr, (Draft.nodes_addTree { owner := 0 } e.tree).1]

@[simp] theorem root_ofExpr (e : Expr) : (ofExpr e).root = e.tree.rootFrom 0 :=
  (Draft.nodes_addTree { owner := 0 } e.tree).2

theorem number_eq (v : Int64) : number v = ofExpr (.number v) := rfl

/-- A tree alone in a draft is an arena if it keeps the limit. -/
theorem ofNodes_addTree (owner : Nat) (t : Tree) :
    ofNodes (({ owner } : Draft).addTree t).2.nodes (({ owner } : Draft).addTree t).1.index =
      (Expr.ofTree t).map ofExpr := by
  obtain ⟨hnodes, hroot⟩ := Draft.nodes_addTree { owner } t
  by_cases ht : t.depth ≤ maxDepth
  · have hok : Expr.ofTree t = .ok ⟨t, ht⟩ := Expr.ofTree_eq_ok.2 rfl
    rw [hok, Except.map, ofNodes_eq_ok, hnodes, hroot]
    simp
  · have herr : Expr.ofTree t = .error .tooDeep :=
      Expr.ofTree_eq_error.2 ⟨Nat.lt_of_not_le ht, rfl⟩
    rw [herr, ofNodes]
    split
    · rename_i hnone
      rw [Draft.treeAt?_addTree] at hnone
      cases hnone
    · rename_i u hu
      rw [Draft.treeAt?_addTree, Option.some_inj] at hu
      rw [dif_neg (hu ▸ ht)]
      rfl

theorem combine_eq (op : Op) (l r : Arena) :
    combine op l r = (Expr.combine op l.expr r.expr).map ofExpr := by
  -- the draft with the two copies
  let left := ({ owner := 0 } : Draft).addTree l.expr.tree
  let right := left.2.addTree r.expr.tree
  have hs : right.2.Sound :=
    ((Draft.sound_empty 0).addTree l.expr.depth_le).addTree r.expr.depth_le
  have hl : right.2.Holds left.1 l.expr.tree :=
    (Draft.Extends.addTree left.2 _).holds (Draft.holds_addTree _ _)
  have hr : right.2.Holds right.1 r.expr.tree := Draft.holds_addTree _ _
  have hcombine : combine op l r =
      (right.2.combine op left.1 right.1).bind fun made => ofNodes made.2.nodes made.1.index := by
    simp only [combine, Draft.copy_eq]
    rfl
  rw [hcombine, Expr.combine]
  by_cases hle : (Tree.node op l.expr.tree r.expr.tree).depth ≤ maxDepth
  · have hok : right.2.combine op left.1 right.1 =
        .ok (({ owner := 0 } : Draft).addTree (.node op l.expr.tree r.expr.tree)) := by
      rw [Draft.combine_eq_ok, hs.depthOf_branch hl hr]
      exact ⟨⟨hl.1, hr.1⟩, hle, rfl⟩
    rw [hok, Except.bind]
    exact ofNodes_addTree 0 (.node op l.expr.tree r.expr.tree)
  · have hdeep : right.2.combine op left.1 right.1 = .error .tooDeep := by
      rw [Draft.combine_eq_error, hs.depthOf_branch hl hr]
      exact .inr ⟨rfl, ⟨hl.1, hr.1⟩, Nat.lt_of_not_le hle⟩
    rw [hdeep, Expr.ofTree_eq_error.2 ⟨Nat.lt_of_not_le hle, rfl⟩]
    rfl

end Arena

/-- An extraction keeps the tree below the root and drops all other nodes. -/
theorem Draft.extract_eq (d : Draft) (root : Handle) : d.extract root =
    if d.owns root then
      match Node.treeAt? d.nodes root.index with
      | some t => (Expr.ofTree t).map Arena.ofExpr
      | none => .error .foreignOperand
    else .error .foreignOperand := by
  unfold extract
  split
  · rw [copyAt?_eq]
    cases Node.treeAt? d.nodes root.index with
    | none => rfl
    | some t => exact Arena.ofNodes_addTree d.owner t
  · rfl

theorem Draft.extract_eq_ok {d : Draft} {root : Handle} {a : Arena} (h : d.extract root = .ok a) :
    d.Holds root a.expr.tree ∧ a = .ofExpr a.expr := by
  rw [extract_eq] at h
  split at h
  · rename_i howns
    split at h
    · rename_i t ht
      cases hexpr : Expr.ofTree t with
      | error err =>
        rw [hexpr] at h
        cases h
      | ok e =>
        have htree : e.tree = t := Expr.ofTree_eq_ok.1 hexpr
        rw [hexpr] at h
        cases h
        exact ⟨⟨howns, htree ▸ ht⟩, rfl⟩
    · cases h
  · cases h

theorem Draft.Holds.extract {d : Draft} {root : Handle} {e : Expr} (h : d.Holds root e.tree) :
    d.extract root = .ok (.ofExpr e) := by
  simp only [extract_eq, if_pos h.1, h.2, Expr.ofTree_tree]
  rfl

theorem Arena.ofRead_eq (e : Expr) : ofRead e = .ok (ofExpr e) :=
  (Draft.holds_addTree { owner := 0 } e.tree).extract

end ArithTree
