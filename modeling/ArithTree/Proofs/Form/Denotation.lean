import ArithTree.Proofs.Form.Shape

/-!
# Which forms denote a tree

A tree has one form, and no other form denotes it (`eq_form_of_toExprWithin`). The levels that are
left for a form and the depth of the tree are the same count: with `n` levels left, the form of a
tree is accepted up to depth `n` (`toExprWithin_form`) and too deep from there on
(`toExprWithin_form_of_lt`). Nothing is assumed of the forms here; they need not have been read.
-/

namespace ArithTree.Form

variable {n : Nat} {f : Form} {t : Tree} {e : Expr}

theorem toExprWithin_operator_eq_ok {op : Op} {l r : Form} :
    toExprWithin (n + 1) (operator op l r) = .ok e ↔ ∃ left right, toExprWithin n l = .ok left ∧
      toExprWithin n r = .ok right ∧ e.tree = .node op left.tree right.tree := by
  rw [toExprWithin_operator]
  cases toExprWithin n l with
  | error err => simp [bind, Except.bind]
  | ok left =>
    cases toExprWithin n r with
    | error err => simp [bind, Except.bind]
    | ok right => simp [bind, Except.bind, Expr.combine_eq_ok]

/-- A form that denotes an expression is the form of its tree, which fits into the levels. -/
theorem eq_form_of_toExprWithin (h : toExprWithin n f = .ok e) :
    f = e.tree.form ∧ e.tree.depth ≤ n := by
  induction n generalizing f e with
  | zero => cases h
  | succ n ih =>
    cases hfault : f.fault? with
    | some err =>
      rw [toExprWithin_fault n hfault] at h
      cases h
    | none =>
      rcases fault?_eq_none_iff.1 hfault with ⟨v, rfl⟩ | ⟨op, l, r, rfl⟩
      · rw [toExprWithin_literal] at h
        cases h
        exact ⟨rfl, Nat.succ_le_succ n.zero_le⟩
      · obtain ⟨left, right, hleft, hright, htree⟩ := toExprWithin_operator_eq_ok.1 h
        obtain ⟨rfl, hl⟩ := ih hleft
        obtain ⟨rfl, hr⟩ := ih hright
        rw [htree]
        refine ⟨rfl, ?_⟩
        rw [Tree.depth_node]
        omega

theorem toExprWithin_form (h : t.depth ≤ n) (hn : n ≤ maxDepth) :
    toExprWithin n t.form = .ok ⟨t, Nat.le_trans h hn⟩ := by
  induction t generalizing n with
  | lit v =>
    cases n with
    | zero => simp at h
    | succ m => exact toExprWithin_literal m v
  | node op l r ihl ihr =>
    rw [Tree.depth_node] at h
    cases n with
    | zero => omega
    | succ m =>
      rw [Tree.form, toExprWithin_operator, ihl (by omega) (by omega), ihr (by omega) (by omega)]
      exact Expr.combine_eq_ok.2 rfl

/-- A tree with more levels than are left has an operand with more levels than are left for it, and
the refusal of the operand is that of the operator. -/
theorem toExprWithin_form_of_lt (h : n < t.depth) (hn : n ≤ maxDepth) :
    toExprWithin n t.form = .error .tooDeep := by
  induction t generalizing n with
  | lit v =>
    obtain rfl : n = 0 := Nat.lt_one_iff.1 h
    rfl
  | node op l r ihl ihr =>
    cases n with
    | zero => rfl
    | succ n =>
      rw [Tree.depth_node] at h
      rw [Tree.form, toExprWithin_operator]
      by_cases hl : l.depth ≤ n
      · have hr : n < r.depth := by omega
        rw [toExprWithin_form hl (by omega), ihr hr (by omega)]
        rfl
      · rw [ihl (by omega) (by omega)]
        rfl

/-- **Forms denote trees one to one.** A form denotes a tree exactly if it is the form of the tree
and the tree keeps the limit; so two forms of one tree are the same form. The form of a deeper tree
is too deep. -/
theorem toExpr_exact (f : Form) (t : Tree) :
    ((∃ e, f.toExpr = .ok e ∧ e.tree = t) ↔ f = t.form ∧ t.depth ≤ maxDepth) ∧
    (∀ g e e', f.toExpr = .ok e → g.toExpr = .ok e' → e.tree = e'.tree → f = g) ∧
    (maxDepth < t.depth → t.form.toExpr = .error .tooDeep) := by
  refine ⟨⟨?_, ?_⟩, fun g e e' hf hg htree => ?_, fun h => ?_⟩
  · rintro ⟨e, he, rfl⟩
    exact eq_form_of_toExprWithin he
  · rintro ⟨rfl, ht⟩
    exact ⟨⟨t, ht⟩, toExprWithin_form ht (Nat.le_refl _), rfl⟩
  · rw [(eq_form_of_toExprWithin hf).1, htree, (eq_form_of_toExprWithin hg).1]
  · exact toExprWithin_form_of_lt h (Nat.le_refl _)

/-- A sum with one level too many, and a difference that one form denotes. -/
theorem toExpr_exact_deep :
    let deep := Nat.repeat (fun t => Tree.node .add t (.lit 1)) maxDepth (.lit 1)
    (maxDepth < deep.depth ∧ deep.form.toExpr = .error .tooDeep) ∧
    ∃ e, (operator .sub (literal 2) (literal 3)).toExpr = .ok e ∧
      e.tree = .node .sub (.lit 2) (.lit 3) ∧
      ∀ g, g.toExpr = .ok e → g = operator .sub (literal 2) (literal 3) := by
  intro deep
  have hdeep : maxDepth < deep.depth := by decide +kernel
  have hle : (Tree.node .sub (.lit 2) (.lit 3)).depth ≤ maxDepth := by decide
  obtain ⟨e, he, htree⟩ := (toExpr_exact _ _).1.2 ⟨rfl, hle⟩
  exact ⟨⟨hdeep, (toExpr_exact deep.form deep).2.2 hdeep⟩, e, he, htree, fun g hg =>
    (toExpr_exact g e.tree).2.1 _ e e hg he rfl⟩

end ArithTree.Form
