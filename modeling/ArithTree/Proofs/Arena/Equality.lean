import ArithTree.Proofs.Arena.Compact
import ArithTree.Proofs.Evaluation.InPlace
import ArithTree.Proofs.Written.ReadBack

/-!
# Equality of arenas

`Arena.same` goes through two arenas in step, each with a numbering of its own, and decides whether
the trees below their roots are equal (`Node.sameAt_iff`). A text that is read back decides the same,
so an arena shows in each of these texts what it is equal to (`Arena.same_iff_written`).
-/

namespace ArithTree

theorem Node.sameAt_iff {nodes others : Array Node} {i j : Nat} {t u : Tree}
    (ht : treeAt? nodes i = some t) (hu : treeAt? others j = some u) :
    sameAt nodes i others j ↔ t = u := by
  induction t generalizing i j u with
  | lit v =>
    have hi := treeAt?_eq_lit.1 ht
    cases u with
    | lit w =>
      rw [sameAt, hi, treeAt?_eq_lit.1 hu]
      simp
    | node op l' r' =>
      obtain ⟨_, _, hj, -⟩ := treeAt?_eq_node.1 hu
      rw [sameAt, hi, hj]
      simp
  | node op l r ihl ihr =>
    obtain ⟨left, right, hi, hlt, hl, hr⟩ := treeAt?_eq_node.1 ht
    cases u with
    | lit w =>
      rw [sameAt, hi, treeAt?_eq_lit.1 hu]
      simp
    | node op' l' r' =>
      obtain ⟨left', right', hj, hlt', hl', hr'⟩ := treeAt?_eq_node.1 hu
      have hearlier : (left < i ∧ right < i) ∧ left' < j ∧ right' < j := ⟨hlt, hlt'⟩
      rw [sameAt, hi, hj]
      simp only [if_pos hearlier, Bool.and_eq_true, beq_iff_eq, ihl hl hl', ihr hr hr',
        Tree.node.injEq]
      exact and_assoc

namespace Arena

variable {a b : Arena} {w : Writing}

theorem same_iff : a.same b ↔ a.expr = b.expr :=
  (Node.sameAt_iff a.treeAt?_root b.treeAt?_root).trans Expr.ext_iff.symm

theorem same_iff_write_eq (hw : w ≠ .formula .sparing) :
    a.same b ↔ a.expr.write w = b.expr.write w :=
  same_iff.trans (Expr.write_inj hw).symm

/-- **Equality is what every text shows.** Two arenas, however they were made, are equal if and only if
their S-expressions are, if and only if their faithful formulas are, if and only if their phrases are,
and if and only if their calls are. Equal arenas have one depth, one number of nodes, one sparing
formula, and one result under every operator table. -/
theorem same_iff_written (ha : a.Obtained) (hb : b.Obtained) :
    (a.same b ↔ a.expr.sexpr = b.expr.sexpr) ∧
    (a.same b ↔ a.expr.formula .faithful = b.expr.formula .faithful) ∧
    (a.same b ↔ a.expr.phrase = b.expr.phrase) ∧
    (a.same b ↔ a.expr.call = b.expr.call) ∧
    (a.same b → a.expr.depth = b.expr.depth ∧ a.nodes.size = b.nodes.size ∧
      a.expr.formula .sparing = b.expr.formula .sparing ∧
      ∀ table, Node.evalAt table a.nodes a.root = Node.evalAt table b.nodes b.root) := by
  refine ⟨same_iff_write_eq (w := .sexpr) ?_, same_iff_write_eq (w := .formula .faithful) ?_,
    same_iff_write_eq (w := .phrase) ?_, same_iff_write_eq (w := .call) ?_, fun h => ?_⟩
  · decide
  · decide
  · decide
  · decide
  · have heq : a.expr = b.expr := same_iff.1 h
    refine ⟨by rw [heq], ?_, by rw [heq], fun table => ?_⟩
    · rw [ha.compact.size_eq, hb.compact.size_eq, heq]
    · rw [evalAt_root, evalAt_root, heq]

/-- A literal added to itself is the arena that is read from its S-expression, and is not the literal. -/
theorem same_iff_written_double :
    ∃ a b : Arena, a.Obtained ∧ b.Obtained ∧ (number 1).Obtained ∧
      a.expr.tree = .node .add (.lit 1) (.lit 1) ∧ a.same b ∧ a.expr.call = b.expr.call ∧
      a.nodes.size = b.nodes.size ∧ ¬ a.same (number 1) := by
  let e : Expr := ⟨.node .add (.lit 1) (.lit 1), by decide⟩
  obtain ⟨a, hmade⟩ : ∃ a, Arena.combine .add (number 1) (number 1) = .ok a :=
    exists_combine_eq_ok.2 (by decide)
  have htree : a.expr.tree = e.tree := (combine_eq_ok.1 hmade).1
  have ha : a.Obtained := .combine (.number 1) (.number 1) hmade
  have hread : (Writing.sexpr.dialect.read e.sexpr).bind ofRead = .ok (ofExpr e) := by
    rw [show Writing.sexpr.dialect.read e.sexpr = .ok e from Expr.readBack_eq (by decide) e]
    exact ofRead_eq e
  have hb : (ofExpr e).Obtained := .read hread
  obtain ⟨hsexpr, -, -, hcall, hequal⟩ := same_iff_written ha hb
  have hsame : a.same (ofExpr e) := hsexpr.2 (congrArg Expr.sexpr (Expr.ext htree))
  have hother : a.expr.sexpr ≠ (number 1).expr.sexpr := by
    rw [Expr.ext htree]
    decide
  exact ⟨a, ofExpr e, ha, hb, .number 1, htree, hsame, hcall.1 hsame, (hequal hsame).2.1,
    mt (same_iff_written ha (.number 1)).1.1 hother⟩

end Arena

end ArithTree
