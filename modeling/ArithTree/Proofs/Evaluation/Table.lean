import ArithTree.Proofs.Evaluation.Node
import Mathlib.Data.List.Induction

/-!
# Evaluation under an operator table

A table made of bindings finds the last one of an operator (`OpTable.find_ofList`). Evaluation asks
for the operators of the tree and for no others, so tables that agree on these cannot be told apart
(`Tree.eval_congr`). A tree with an operator that is not bound has no value (`Tree.eval_ne_ok`), but
another error can hide the missing operator: an operand that is evaluated first may fail for a cause
of its own. What holds is the other direction, that an unknown operator is one of the tree and is not
bound (`Tree.eval_unknownOperator`). Only the operator of the root is sure to be reported, since it
is looked up before any operand is evaluated.
-/

namespace ArithTree

/-- The operation is never refused for an operator. -/
def Operation.NeverUnknown (f : Operation) : Prop :=
  ∀ a b name arity, f a b ≠ .error (.unknownOperator name arity)

namespace OpTable

/-- The operation of the last binding of an operator. -/
def lastBound (bindings : List (Op × Operation)) (op : Op) : Option Operation :=
  bindings.reverse.lookup op

theorem find_ofList (bindings : List (Op × Operation)) (op : Op) :
    (ofList bindings).find op = lastBound bindings op := by
  induction bindings using List.reverseRec with
  | nil => rfl
  | append_singleton bindings binding ih =>
    obtain ⟨bound, f⟩ := binding
    have hbind : ofList (bindings ++ [(bound, f)]) = (ofList bindings).bind bound f := by
      rw [ofList, List.foldl_append]
      rfl
    rw [hbind, lastBound, List.reverse_append, List.reverse_singleton, List.singleton_append]
    by_cases h : op = bound
    · subst h
      rw [find_bind_self, List.lookup_cons_self]
    · rw [find_bind_of_ne _ _ h, ih, List.lookup_cons, beq_false_of_ne h, lastBound]

end OpTable

namespace Tree

/-- The operator stands in the tree. -/
def Uses (t : Tree) (op : Op) : Prop := ∃ l r, node op l r ∈ t.subtrees

section
variable {t l r : Tree} {op other : Op} {table table' : OpTable} {v : Int64} {name : String}
  {arity : Nat}

theorem not_uses_lit : ¬ (lit v).Uses op := by
  rintro ⟨l, r, hmem⟩
  cases List.mem_singleton.1 hmem

theorem uses_node : (node op l r).Uses other ↔ other = op ∨ l.Uses other ∨ r.Uses other := by
  constructor
  · rintro ⟨l', r', hmem⟩
    rcases mem_subtrees_node.1 hmem with heq | hl | hr
    · cases heq
      exact .inl rfl
    · exact .inr (.inl ⟨l', r', hl⟩)
    · exact .inr (.inr ⟨l', r', hr⟩)
  · rintro (rfl | ⟨l', r', hl⟩ | ⟨l', r', hr⟩)
    · exact ⟨l, r, mem_subtrees_self _⟩
    · exact ⟨l', r', mem_subtrees_node.2 (.inr (.inl hl))⟩
    · exact ⟨l', r', mem_subtrees_node.2 (.inr (.inr hr))⟩

/-- A missing operator is found before the operands are looked at. -/
theorem eval_node_of_none (hop : table.find op = none) :
    (node op l r).eval table = .error (.unknownOperator op.keyword 2) := by
  rw [eval, hop]

theorem eval_congr (h : ∀ op, t.Uses op → table.find op = table'.find op) :
    t.eval table = t.eval table' := by
  induction t with
  | lit v => rfl
  | node op l r ihl ihr =>
    have hop : table.find op = table'.find op := h op (uses_node.2 (.inl rfl))
    have hl : l.eval table = l.eval table' :=
      ihl fun other huses => h other (uses_node.2 (.inr (.inl huses)))
    have hr : r.eval table = r.eval table' :=
      ihr fun other huses => h other (uses_node.2 (.inr (.inr huses)))
    cases hf : table.find op with
    | none => rw [eval_node_of_none hf, eval_node_of_none (hop ▸ hf)]
    | some f => rw [eval_node hf, eval_node (hop ▸ hf), hl, hr]

theorem eval_ne_ok (huses : t.Uses op) (hop : table.find op = none) (v : Int64) :
    t.eval table ≠ .ok v := by
  induction t generalizing v with
  | lit w => exact absurd huses not_uses_lit
  | node root l r ihl ihr =>
    intro h
    cases hf : table.find root with
    | none =>
      rw [eval_node_of_none hf] at h
      cases h
    | some f =>
      -- A value of the node needs a value of both operands.
      obtain ⟨a, b, hl, hr, -⟩ := (eval_node_eq_ok hf).1 h
      rcases uses_node.1 huses with rfl | hleft | hright
      · rw [hop] at hf
        cases hf
      · exact ihl hleft a hl
      · exact ihr hright b hr

theorem eval_unknownOperator (hnever : ∀ op f, table.find op = some f → f.NeverUnknown)
    (h : t.eval table = .error (.unknownOperator name arity)) :
    arity = 2 ∧ ∃ op, t.Uses op ∧ table.find op = none ∧ name = op.keyword := by
  induction t with
  | lit v => cases h
  | node root l r ihl ihr =>
    cases hf : table.find root with
    | none =>
      rw [eval_node_of_none hf] at h
      cases h
      exact ⟨rfl, root, uses_node.2 (.inl rfl), hf, rfl⟩
    | some f =>
      rcases eval_node_error hf h with hl | hr | ⟨a, b, -, -, hfault⟩
      · obtain ⟨harity, op, huses, hop⟩ := ihl hl
        exact ⟨harity, op, uses_node.2 (.inr (.inl huses)), hop⟩
      · obtain ⟨harity, op, huses, hop⟩ := ihr hr
        exact ⟨harity, op, uses_node.2 (.inr (.inr huses)), hop⟩
      · exact absurd hfault (hnever root f hf a b name arity)

end

end Tree

/-- **Evaluation asks for the operators of the tree alone.** Two lists of bindings whose last ones
agree on every operator of an expression give it the same outcome. If one of its operators is not
bound there is no value. An unknown operator, unless an operation reports one itself, is an operator
of the expression that is not bound, with two operands; and if the operator of the root is not bound,
it is the one that is reported, whatever the operands are. -/
theorem Expr.evalIn_ofList (e : Expr) :
    (∀ bindings bindings' : List (Op × Operation),
      (∀ op, e.tree.Uses op → OpTable.lastBound bindings op = OpTable.lastBound bindings' op) →
        e.evalIn (.ofList bindings) = e.evalIn (.ofList bindings')) ∧
    ∀ bindings : List (Op × Operation),
      (∀ op, e.tree.Uses op → OpTable.lastBound bindings op = none →
        ∀ v, e.evalIn (.ofList bindings) ≠ .ok v) ∧
      ((∀ op f, OpTable.lastBound bindings op = some f → f.NeverUnknown) → ∀ name arity,
        e.evalIn (.ofList bindings) = .error (.unknownOperator name arity) →
          arity = 2 ∧ ∃ op, e.tree.Uses op ∧ OpTable.lastBound bindings op = none ∧
            name = op.keyword) ∧
      ∀ op l r, e.tree = .node op l r → OpTable.lastBound bindings op = none →
        e.evalIn (.ofList bindings) = .error (.unknownOperator op.keyword 2) := by
  simp only [← OpTable.find_ofList]
  refine ⟨fun _ _ hagree => Tree.eval_congr hagree, fun bindings => ⟨?_, ?_, ?_⟩⟩
  · exact fun op huses hop v => Tree.eval_ne_ok huses hop v
  · exact fun hnever name arity h => Tree.eval_unknownOperator hnever h
  · intro op l r htree hop
    rw [evalIn, htree]
    exact Tree.eval_node_of_none hop

/-- A product of a sum: bindings in another order and with others in between, and bindings that lack
the product or the sum. -/
theorem Expr.evalIn_ofList_product :
    let e : Expr := ⟨.node .mul (.node .add (.lit 1) (.lit 2)) (.lit 3), by decide⟩
    let rebound : List (Op × Operation) :=
      [(.mul, .left), (.add, .add), (.div, .euclid), (.mul, .mul)]
    let reordered : List (Op × Operation) := [(.mul, .mul), (.sub, .right), (.add, .add)]
    let sums : List (Op × Operation) := [(.add, .add)]
    let products : List (Op × Operation) := [(.mul, .mul)]
    e.evalIn (.ofList rebound) = e.evalIn (.ofList reordered) ∧
      e.evalIn (.ofList sums) = .error (.unknownOperator "mul" 2) ∧
      (∀ v, e.evalIn (.ofList products) ≠ .ok v) ∧
      ∃ op, e.tree.Uses op ∧ OpTable.lastBound products op = none ∧ "add" = op.keyword := by
  intro e rebound reordered sums products
  have huses (op : Op) (h : e.tree.Uses op) : op = .mul ∨ op = .add := by
    simpa [e, Tree.uses_node, Tree.not_uses_lit] using h
  have hadd : e.tree.Uses .add := by
    simp [e, Tree.uses_node]
  have hmul (op : Op) (f : Operation) (h : OpTable.lastBound products op = some f) :
      f.NeverUnknown := by
    intro a b name arity
    obtain rfl : f = .mul := by cases op <;> cases h; rfl
    intro hfault
    cases (Operation.exact_eq_error.1 hfault).2
  refine ⟨e.evalIn_ofList.1 rebound reordered fun op h => ?_, ?_, ?_, ?_⟩
  · rcases huses op h with rfl | rfl <;> rfl
  · exact (e.evalIn_ofList.2 sums).2.2 .mul _ _ rfl rfl
  · exact (e.evalIn_ofList.2 products).1 .add hadd rfl
  · exact ((e.evalIn_ofList.2 products).2.1 hmul "add" 2 rfl).2

end ArithTree
