import ArithTree.Proofs.Formula.Recognition
import ArithTree.Written

/-!
# Formulas read back

The faithful formula of a tree denotes the tree: every operand without parentheses is of the rank
that stands at its place (`derives_operand`), so the formula is of the rank of the tree's own
operator (`derives_formula`). A formula opens fewer parentheses than the tree has levels
(`atMostOpen_formula`), so the limit on the levels is the only one that a written tree can meet, and
`ofFormula_formula` follows from the recognition of formulas.
-/

namespace ArithTree

open ArithTree.Parser ArithTree.Formula

namespace Formula

variable {k : Rank} {cs : List Char} {t : Tree}

/-! ## Ranks of written texts -/

theorem Derives.blanks_append {w : List Char} (hw : Blanks w) (h : Derives k cs t) :
    Derives k (w ++ cs) t := by
  induction h with
  | literal hv =>
    obtain ⟨w', negative, ds, rfl, hw', hds, hval⟩ := hv
    exact .literal ⟨w ++ w', negative, ds, by simp, hw.append hw', hds, hval⟩
  | group hw' hin hafter _ =>
    rw [← List.append_assoc]
    exact .group (hw.append hw') hin hafter
  | one hk _ ih => exact .one hk ih
  | more hk _ hw' hr ihl _ =>
    rw [← List.append_assoc]
    exact .more hk ihl hw' hr

theorem Derives.inParentheses (h : Derives k cs t) :
    Derives .factor (Tree.inParentheses true cs) t := by
  have := Derives.group .nil h.sum .nil
  rwa [List.nil_append, List.append_nil] at this

end Formula

namespace Tree

/-- The rank of a tree's own operator. -/
def rank : Tree → Rank
  | .lit _ => .factor
  | .node op _ _ => op.rank

/-- A text in parentheses is a factor, and one without them must be of the rank of its place. -/
theorem derives_inParentheses {k : Rank} {t : Tree} {cs : List Char} {wrap : Bool} (h : Derives t.rank cs t)
    (hopen : wrap = false → Derives k cs t) : Derives k (inParentheses wrap cs) t := by
  cases wrap with
  | false => exact hopen rfl
  | true => exact h.inParentheses.of_factor

/-- An operand stands in parentheses unless its rank is that of its place. -/
theorem derives_operand {parent : Op} {t : Tree} {cs : List Char} (h : Derives t.rank cs t) :
    Derives parent.rank.below (inParentheses (t.wrapped .faithful parent) cs) t := by
  refine derives_inParentheses h fun hopen => ?_
  cases t with
  | lit v => exact h.of_factor
  | node child l r =>
    have hrank : parent.rank.below = child.rank := by
      cases parent <;> cases child <;> first | rfl | cases hopen
    rwa [hrank]

theorem derives_formula (t : Tree) : Derives t.rank (t.formula .faithful) t := by
  induction t with
  | lit v => exact .literal (spells_ofInt64 v)
  | node op l r ihl ihr =>
    have hl : Derives op.rank.below
        (inParentheses (l.wrapped .faithful op) (l.formula .faithful)) l := derives_operand ihl
    have hr : Derives op.rank.below
        (inParentheses (r.wrapped .faithful op) (r.formula .faithful)) r := derives_operand ihr
    have := Derives.more rfl hl.of_below blanks_space (hr.blanks_append blanks_space)
    simpa [formula, rank] using this

/-! ## Parentheses of written texts -/

theorem flat_ofInt64 (v : Int64) : ∀ c ∈ Numeral.ofInt64 v, isFlat c :=
  flat_of_spells (spells_ofInt64 v)

theorem flat_spaced_sign (op : Op) : ∀ c ∈ ' ' :: op.sign.toList, isFlat c :=
  flat_sign blanks_space

theorem flat_space : ∀ c ∈ [' '], isFlat c := flat_of_blanks blanks_space

theorem balanced_inParentheses (wrap : Bool) {cs : List Char} (h : Balanced cs) :
    Balanced (inParentheses wrap cs) := by
  cases wrap with
  | false => exact h
  | true => exact h.group

theorem atMostOpen_inParentheses (wrap : Bool) {n : Nat} {cs : List Char} (hb : Balanced cs)
    (h : AtMostOpen n cs) : AtMostOpen (n + 1) (inParentheses wrap cs) := by
  cases wrap with
  | false => exact h.mono n.le_succ
  | true => exact (atMostOpen_group hb).2 ⟨n.succ_pos, h⟩

theorem formula_node (g : Grouping) (op : Op) (l r : Tree) : (node op l r).formula g =
    inParentheses (l.wrapped g op) (l.formula g) ++ ((' ' :: op.sign.toList) ++
      ([' '] ++ inParentheses (r.wrapped g op) (r.formula g))) := by
  simp [formula]

theorem balanced_formula (g : Grouping) (t : Tree) : Balanced (t.formula g) := by
  induction t with
  | lit v => exact .of_flat (flat_ofInt64 v)
  | node op l r ihl ihr =>
    rw [formula_node]
    exact (balanced_inParentheses _ ihl).append ((Balanced.of_flat (flat_spaced_sign op)).append
      ((Balanced.of_flat flat_space).append (balanced_inParentheses _ ihr)))

/-- A formula opens no more parentheses at once than the tree has levels. -/
theorem atMostOpen_formula (g : Grouping) (t : Tree) : AtMostOpen t.depth (t.formula g) := by
  induction t with
  | lit v => exact .of_flat (flat_ofInt64 v) _
  | node op l r ihl ihr =>
    have hoperand {t : Tree} (h : AtMostOpen t.depth (t.formula g))
        (hle : t.depth + 1 ≤ 1 + max l.depth r.depth) :
        AtMostOpen (1 + max l.depth r.depth) (inParentheses (t.wrapped g op) (t.formula g)) :=
      (atMostOpen_inParentheses _ (balanced_formula g t) h).mono hle
    rw [formula_node, atMostOpen_append (balanced_inParentheses _ (balanced_formula g l)),
      atMostOpen_append (.of_flat (flat_spaced_sign op)), atMostOpen_append (.of_flat flat_space)]
    exact ⟨hoperand ihl (by omega), .of_flat (flat_spaced_sign op) _, .of_flat flat_space _,
      hoperand ihr (by omega)⟩

end Tree

/-- A written formula that denotes its tree is read as this tree, unless the tree is too deep. -/
theorem ofFormula_of_derives {g : Grouping} {t : Tree} (h : Derives t.rank (t.formula g) t) :
    Expr.ofFormula (String.ofList (t.formula g)) =
      if h : t.depth ≤ maxDepth then .ok ⟨t, h⟩ else .error .tooDeep := by
  have hden : Denotes (String.ofList (t.formula g)).toList t :=
    ⟨t.formula g, [], by simp, h.sum, .nil⟩
  rw [ofFormula_of_denotes hden]
  by_cases h : t.depth ≤ maxDepth
  · rw [dif_pos h, dif_pos ⟨h, by simpa using (t.atMostOpen_formula g).mono h⟩]
  · rw [dif_neg h, dif_neg fun hlim => h hlim.1]

theorem ofFormula_written (t : Tree) :
    Expr.ofFormula (String.ofList (t.formula .faithful)) =
      if h : t.depth ≤ maxDepth then .ok ⟨t, h⟩ else .error .tooDeep :=
  ofFormula_of_derives t.derives_formula

/-- **Faithful formulas lose no grouping.** The faithful formula of a tree is read as this very tree
if it has at most `maxDepth` levels, and is refused as too deep otherwise; so every expression is
read back from its own formula. -/
theorem ofFormula_formula (t : Tree) :
    Expr.ofFormula (String.ofList (t.formula .faithful)) =
      (if h : t.depth ≤ maxDepth then .ok ⟨t, h⟩ else .error .tooDeep) ∧
    ∀ e : Expr, Expr.ofFormula (e.formula .faithful) = .ok e :=
  ⟨ofFormula_written t, fun e => (ofFormula_written e.tree).trans (dif_pos e.depth_le)⟩

end ArithTree
