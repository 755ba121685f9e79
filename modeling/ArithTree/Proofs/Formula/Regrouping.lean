import ArithTree.Proofs.Evaluation.Node
import ArithTree.Proofs.Formula.RoundTrip

/-!
# What sparing formulas keep

A sparing formula has no parentheses inside a chain of operators of one rank, so it does not say how
the chain was grouped; it is read with every chain grouped to the left. `Tree.regrouped` is this
tree. It has the same sparing formula (`formula_regrouped`), since the text of a chain is that of its
operands and operators one after another, however they are grouped (`Chain.operandText_toTree`). And
it is grouped to the left (`leftGrouped_regrouped`), which is what a sparing formula needs to denote
its own tree (`LeftGrouped.derives_formula`).
-/

namespace ArithTree

open ArithTree.Parser ArithTree.Formula

theorem Op.rank_ne_factor (op : Op) : op.rank ≠ .factor := by
  cases op <;> decide

theorem Op.rank_eq (op : Op) : op.rank = .sum ∨ op.rank = .product := by
  cases op <;> decide

/-- Operands with operators between them. -/
structure Chain where
  first : Tree
  rest : List (Op × Tree)

namespace Chain

/-- The chain grouped to the left. -/
def toTree (c : Chain) : Tree :=
  c.rest.foldl (fun left step => .node step.1 left step.2) c.first

/-- Two chains with an operator between them. -/
def join (c : Chain) (op : Op) (d : Chain) : Chain :=
  ⟨c.first, c.rest ++ (op, d.first) :: d.rest⟩

/-- The right chain goes on where the operator has joined the left one to its first operand. -/
theorem toTree_join (c : Chain) (op : Op) (d : Chain) :
    (c.join op d).toTree = (⟨.node op c.toTree d.first, d.rest⟩ : Chain).toTree := by
  simp [join, toTree]

end Chain

namespace Tree

/-- What a tree adds to a chain of rank `k` that it stands in: its own chain if it is of this rank,
and otherwise itself, as one operand. The operands are regrouped. -/
def chainAt (k : Rank) : Tree → Chain
  | .lit v => ⟨.lit v, []⟩
  | .node op l r =>
    let own := (l.chainAt op.rank).join op (r.chainAt op.rank)
    if op.rank = k then own else ⟨own.toTree, []⟩

/-- The tree with every chain of operators of one rank grouped to the left. -/
def regrouped (t : Tree) : Tree := (t.chainAt t.rank).toTree

/-- No operator has a right operand of its own rank. -/
def LeftGrouped (t : Tree) : Prop :=
  ∀ op l r, .node op l r ∈ t.subtrees → r.rank ≠ op.rank

variable {k : Rank} {op : Op} {t u l r : Tree}

/-! ## Chains of a tree -/

theorem chainAt_node (op : Op) (l r : Tree) : (node op l r).chainAt op.rank =
    (l.chainAt op.rank).join op (r.chainAt op.rank) := by
  simp [chainAt]

theorem regrouped_node (op : Op) (l r : Tree) : (node op l r).regrouped =
    ((l.chainAt op.rank).join op (r.chainAt op.rank)).toTree := by
  rw [regrouped, rank, chainAt_node]

theorem chainAt_of_ne (h : t.rank ≠ k) : t.chainAt k = ⟨t.regrouped, []⟩ := by
  cases t with
  | lit v => rfl
  | node op l r =>
    rw [regrouped_node, chainAt]
    exact if_neg h

theorem toTree_chainAt (k : Rank) (t : Tree) : (t.chainAt k).toTree = t.regrouped := by
  by_cases h : t.rank = k
  · rw [← h, regrouped]
  · rw [chainAt_of_ne h]
    rfl

theorem leftGrouped_lit (v : Int64) : (lit v).LeftGrouped := by
  intro op l r h
  cases List.mem_singleton.1 h

theorem leftGrouped_node : (node op l r).LeftGrouped ↔
    r.rank ≠ op.rank ∧ l.LeftGrouped ∧ r.LeftGrouped := by
  simp only [LeftGrouped, mem_subtrees_node]
  constructor
  · intro h
    exact ⟨h op l r (.inl rfl), fun _ _ _ hl => h _ _ _ (.inr (.inl hl)),
      fun _ _ _ hr => h _ _ _ (.inr (.inr hr))⟩
  · rintro ⟨hop, hl, hr⟩ op' l' r' (heq | hmem | hmem)
    · cases heq
      exact hop
    · exact hl op' l' r' hmem
    · exact hr op' l' r' hmem

end Tree

namespace Chain

variable {k : Rank} {op : Op} {c d : Chain}

/-- Operands of other ranks, themselves grouped to the left, with operators of rank `k` between
them. -/
structure OfRank (k : Rank) (c : Chain) : Prop where
  first : c.first.rank ≠ k ∧ c.first.LeftGrouped
  rest : ∀ step ∈ c.rest, step.1.rank = k ∧ step.2.rank ≠ k ∧ step.2.LeftGrouped

theorem OfRank.join (hc : c.OfRank k) (hop : op.rank = k) (hd : d.OfRank k) :
    (c.join op d).OfRank k where
  first := hc.first
  rest := by
    intro step hstep
    rcases List.mem_append.1 hstep with hmem | hmem
    · exact hc.rest step hmem
    · rcases List.mem_cons.1 hmem with rfl | hmem
      · exact ⟨hop, hd.first⟩
      · exact hd.rest step hmem

theorem leftGrouped_toTree {first : Tree} {rest : List (Op × Tree)} (hfirst : first.LeftGrouped)
    (hrest : ∀ step ∈ rest, step.1.rank = k ∧ step.2.rank ≠ k ∧ step.2.LeftGrouped) :
    (⟨first, rest⟩ : Chain).toTree.LeftGrouped := by
  -- the tree that is built so far takes the place of the first operand
  induction rest generalizing first with
  | nil => exact hfirst
  | cons step rest ih =>
    obtain ⟨⟨rfl, hne, hstep⟩, hrest⟩ := List.forall_mem_cons.1 hrest
    exact ih (Tree.leftGrouped_node.2 ⟨hne, hfirst, hstep⟩) hrest

theorem rank_toTree {first : Tree} {rest : List (Op × Tree)} (hfirst : first.rank = k)
    (hrest : ∀ step ∈ rest, step.1.rank = k) : (⟨first, rest⟩ : Chain).toTree.rank = k := by
  induction rest generalizing first with
  | nil => exact hfirst
  | cons step rest ih =>
    obtain ⟨hstep, hrest⟩ := List.forall_mem_cons.1 hrest
    exact ih hstep hrest

theorem rank_toTree_join (hop : op.rank = k) (hd : d.OfRank k) : (c.join op d).toTree.rank = k := by
  rw [toTree_join]
  exact rank_toTree hop fun step hstep => (hd.rest step hstep).1

end Chain

namespace Tree

variable {k : Rank} {op : Op} {t u l r : Tree}

theorem ofRank_chainAt (op : Op) (t : Tree) : (t.chainAt op.rank).OfRank op.rank := by
  induction t generalizing op with
  | lit v => exact ⟨⟨op.rank_ne_factor.symm, leftGrouped_lit v⟩, by simp [chainAt]⟩
  | node child l r ihl ihr =>
    have hown := (ihl child).join rfl (ihr child)
    by_cases h : child.rank = op.rank
    · rw [← h, chainAt_node]
      exact hown
    · rw [chainAt_of_ne (t := node child l r) h, regrouped_node]
      refine ⟨⟨?_, Chain.leftGrouped_toTree hown.first.2 hown.rest⟩, by simp⟩
      rwa [Chain.rank_toTree_join rfl (ihr child)]

theorem rank_regrouped (t : Tree) : t.regrouped.rank = t.rank := by
  cases t with
  | lit v => rfl
  | node op l r =>
    rw [regrouped_node]
    exact Chain.rank_toTree_join rfl (ofRank_chainAt op r)

theorem leftGrouped_regrouped (t : Tree) : t.regrouped.LeftGrouped := by
  cases t with
  | lit v => exact leftGrouped_lit v
  | node op l r =>
    have hown : ((node op l r).chainAt op.rank).OfRank op.rank := ofRank_chainAt op _
    exact Chain.leftGrouped_toTree hown.first.2 hown.rest

example : (node .sub (.lit 9) (.node .add (.node .mul (.lit 2) (.lit 3)) (.lit 1))).regrouped =
    .node .add (.node .sub (.lit 9) (.node .mul (.lit 2) (.lit 3))) (.lit 1) := rfl

theorem LeftGrouped.regrouped_eq (h : t.LeftGrouped) : t.regrouped = t := by
  induction t with
  | lit v => rfl
  | node op l r ihl ihr =>
    obtain ⟨hne, hl, hr⟩ := leftGrouped_node.1 h
    rw [regrouped_node, chainAt_of_ne hne, Chain.toTree_join, toTree_chainAt, ihl hl, ihr hr]
    rfl

/-! ## Texts of chains -/

/-- Only a sum in a product is put in parentheses. -/
theorem wrapped_sparing (op : Op) (t : Tree) :
    t.wrapped .sparing op = decide (op.rank = .product ∧ t.rank = .sum) := by
  cases t with
  | lit v => simp [wrapped, rank]
  | node child l r => cases op <;> cases child <;> rfl

/-- The text of an operand of `op` in a sparing formula. -/
def operandText (op : Op) (t : Tree) : List Char :=
  inParentheses (t.wrapped .sparing op) (t.formula .sparing)

/-- An operator between the texts of its operands. -/
def spaced (op : Op) (right : List Char) : List Char := ' ' :: op.sign.toList ++ ' ' :: right

theorem formula_sparing_node (op : Op) (l r : Tree) : (node op l r).formula .sparing =
    operandText op l ++ spaced op (operandText op r) := by
  simp [formula, operandText, spaced]

theorem operandText_congr {op op' : Op} (hop : op.rank = op'.rank) (hrank : t.rank = u.rank)
    (h : t.formula .sparing = u.formula .sparing) : operandText op t = operandText op' u := by
  rw [operandText, operandText, wrapped_sparing, wrapped_sparing, hop, hrank, h]

theorem operandText_of_rank (h : t.rank = op.rank) : operandText op t = t.formula .sparing := by
  have hwrapped : t.wrapped .sparing op = false := by
    rw [wrapped_sparing, h]
    cases op <;> rfl
  rw [operandText, hwrapped]
  rfl

end Tree

/-- The operands and operators of a chain one after another, as operands of `op`. -/
def Chain.text (op : Op) (c : Chain) : List Char :=
  c.first.operandText op ++ c.rest.flatMap fun step => Tree.spaced step.1 (step.2.operandText step.1)

theorem Chain.text_join (op : Op) (c : Chain) (op' : Op) (d : Chain) (h : op'.rank = op.rank) :
    (c.join op' d).text op = c.text op ++ Tree.spaced op' (d.text op) := by
  simp [text, join, Tree.spaced, Tree.operandText_congr h rfl rfl]

/-- The text of a chain does not show how the chain is grouped. -/
theorem Chain.operandText_toTree {op : Op} (c : Chain)
    (hrest : ∀ step ∈ c.rest, step.1.rank = op.rank) : c.toTree.operandText op = c.text op := by
  obtain ⟨first, rest⟩ := c
  induction rest generalizing first with
  | nil => simp [toTree, text]
  | cons step rest ih =>
    obtain ⟨hstep, hrest⟩ := List.forall_mem_cons.1 hrest
    let joined := Tree.node step.1 first step.2
    have hjoined : joined.operandText op =
        first.operandText op ++ Tree.spaced step.1 (step.2.operandText step.1) := by
      rw [Tree.operandText_of_rank (t := joined) hstep, Tree.formula_sparing_node,
        Tree.operandText_congr hstep rfl rfl]
    calc (⟨first, step :: rest⟩ : Chain).toTree.operandText op
      _ = (⟨joined, rest⟩ : Chain).text op := ih joined hrest
      _ = (⟨first, step :: rest⟩ : Chain).text op := by
        rw [text, hjoined, text, List.flatMap_cons, List.append_assoc]

namespace Tree

variable {op : Op} {t : Tree}

theorem text_chainAt (op : Op) (t : Tree) :
    (t.chainAt op.rank).text op = operandText op t.regrouped := by
  have hchain := ofRank_chainAt op t
  rw [← Chain.operandText_toTree _ fun step hstep => (hchain.rest step hstep).1, toTree_chainAt]

/-- Regrouping does not change the sparing formula. -/
theorem formula_regrouped (t : Tree) : t.regrouped.formula .sparing = t.formula .sparing := by
  induction t with
  | lit v => rfl
  | node op l r ihl ihr =>
    have hoperand {t : Tree} (h : t.regrouped.formula .sparing = t.formula .sparing) :
        (t.chainAt op.rank).text op = operandText op t := by
      rw [text_chainAt, operandText_congr rfl t.rank_regrouped h]
    calc (node op l r).regrouped.formula .sparing
      _ = operandText op (node op l r).regrouped :=
        (operandText_of_rank (rank_regrouped _)).symm
      _ = ((l.chainAt op.rank).join op (r.chainAt op.rank)).text op := by
        rw [← text_chainAt, chainAt_node]
      _ = operandText op l ++ spaced op (operandText op r) := by
        rw [Chain.text_join _ _ _ _ rfl, hoperand ihl, hoperand ihr]
      _ = (node op l r).formula .sparing := (formula_sparing_node op l r).symm

/-! ## Formulas that denote their own tree -/

theorem derives_left (op : Op) (h : Derives t.rank (t.formula .sparing) t) :
    Derives op.rank (operandText op t) t := by
  refine derives_inParentheses h fun hopen => ?_
  rw [wrapped_sparing, decide_eq_false_iff_not, not_and] at hopen
  rcases op.rank_eq with hop | hop
  · rw [hop]
    exact h.sum
  · rw [hop]
    exact h.product (hopen hop)

theorem derives_right (hne : t.rank ≠ op.rank) (h : Derives t.rank (t.formula .sparing) t) :
    Derives op.rank.below (operandText op t) t := by
  refine derives_inParentheses h fun hopen => ?_
  rw [wrapped_sparing, decide_eq_false_iff_not, not_and] at hopen
  rcases op.rank_eq with hop | hop
  · rw [hop] at hne ⊢
    exact h.product hne
  · rw [hop] at hne ⊢
    have hfactor : t.rank = .factor := by
      cases hrank : t.rank with
      | factor => rfl
      | product => exact absurd hrank hne
      | sum => exact absurd hrank (hopen hop)
    rwa [hfactor] at h

/-- A tree that is grouped to the left is what its sparing formula denotes. -/
theorem LeftGrouped.derives_formula (h : t.LeftGrouped) :
    Derives t.rank (t.formula .sparing) t := by
  induction t with
  | lit v => exact .literal (spells_ofInt64 v)
  | node op l r ihl ihr =>
    obtain ⟨hne, hl, hr⟩ := leftGrouped_node.1 h
    have hleft : Derives op.rank (operandText op l) l := derives_left op (ihl hl)
    have hright : Derives op.rank.below (operandText op r) r := derives_right hne (ihr hr)
    rw [formula_sparing_node]
    exact .more rfl hleft blanks_space (hright.blanks_append blanks_space)

end Tree

/-- **Sparing formulas lose the grouping of chains and nothing else.** The sparing formula of a tree
is read as the regrouped tree, or refused as too deep if that has more than `maxDepth` levels; the
regrouped tree has the same sparing formula. So an expression is read back from its sparing formula
exactly if no operator in it has a right operand of its own rank. -/
theorem ofFormula_sparing (t : Tree) :
    Expr.ofFormula (String.ofList (t.formula .sparing)) =
      (if h : t.regrouped.depth ≤ maxDepth then .ok ⟨t.regrouped, h⟩ else .error .tooDeep) ∧
    t.regrouped.formula .sparing = t.formula .sparing ∧
    ∀ e : Expr, Expr.ofFormula (e.formula .sparing) = .ok e ↔ e.tree.LeftGrouped := by
  have hread (t : Tree) : Expr.ofFormula (String.ofList (t.formula .sparing)) =
      if h : t.regrouped.depth ≤ maxDepth then .ok ⟨t.regrouped, h⟩ else .error .tooDeep := by
    rw [← t.formula_regrouped]
    exact ofFormula_of_derives t.leftGrouped_regrouped.derives_formula
  refine ⟨hread t, t.formula_regrouped, fun e => ?_⟩
  rw [Expr.formula, hread]
  constructor
  · intro h
    split at h
    · have htree : e.tree.regrouped = e.tree := congrArg Expr.tree (Except.ok.inj h)
      exact htree ▸ e.tree.leftGrouped_regrouped
    · cases h
  · intro h
    have hle : e.tree.regrouped.depth ≤ maxDepth := h.regrouped_eq.symm ▸ e.depth_le
    rw [dif_pos hle, Except.ok.injEq]
    exact Expr.ext h.regrouped_eq

/-- The regrouped tree can be too deep where the tree itself is shallow. -/
example : let t := Nat.repeat (fun t => Tree.node .add t t) 7 (.lit 1)
    t.depth = 8 ∧ t.regrouped.depth = 128 := by
  decide +kernel

end ArithTree
