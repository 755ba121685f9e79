import ArithTree.Evaluation

/-!
# Evaluation node by node

A node has a value exactly if its operands have values and the operation bound to its operator
accepts them, whichever operand is evaluated first (`eval_node_eq_ok`). The order decides only
which error escapes, and every error is one of an operand or of the operation
(`eval_node_error`).
-/

namespace ArithTree

namespace Tree

/-- The subtrees of a tree, itself included. -/
def subtrees : Tree → List Tree
  | .lit v => [.lit v]
  | .node op l r => .node op l r :: (l.subtrees ++ r.subtrees)

theorem mem_subtrees_self (t : Tree) : t ∈ t.subtrees := by
  cases t <;> exact List.mem_cons_self

theorem mem_subtrees_node {s l r : Tree} {op : Op} : s ∈ (node op l r).subtrees ↔
    s = node op l r ∨ s ∈ l.subtrees ∨ s ∈ r.subtrees := by
  rw [subtrees, List.mem_cons, List.mem_append]

section
variable {table : OpTable} {op : Op} {l r : Tree} {f : Operation} {a b v : Int64} {err : Error}

/-- The divisor is evaluated first, every other operand from the left. -/
theorem eval_node (hf : table.find op = some f) : (node op l r).eval table =
    if op = .div then (do
      let b ← r.eval table
      let a ← l.eval table
      f a b)
    else (do
      let a ← l.eval table
      let b ← r.eval table
      f a b) := by
  rw [eval, hf]
  cases op <;> rfl

theorem eval_node_eq_ok (hf : table.find op = some f) : (node op l r).eval table = .ok v ↔
    ∃ a b, l.eval table = .ok a ∧ r.eval table = .ok b ∧ f a b = .ok v := by
  rw [eval_node hf]
  constructor
  · intro h
    cases hl : l.eval table with
    | error cause => cases hr : r.eval table <;> rw [hl, hr] at h <;> split at h <;> cases h
    | ok a =>
      cases hr : r.eval table with
      | error cause => rw [hl, hr] at h; split at h <;> cases h
      | ok b =>
        rw [hl, hr] at h
        exact ⟨a, b, rfl, rfl, (ite_self _).symm.trans h⟩
  · rintro ⟨a, b, hl, hr, h⟩
    rw [hl, hr]
    exact (ite_self _).trans h

theorem eval_node_error (hf : table.find op = some f) (h : (node op l r).eval table = .error err) :
    l.eval table = .error err ∨ r.eval table = .error err ∨
      ∃ a b, l.eval table = .ok a ∧ r.eval table = .ok b ∧ f a b = .error err := by
  rw [eval_node hf] at h
  cases hl : l.eval table with
  | error cause =>
    cases hr : r.eval table with
    | error cause' =>
      rw [hl, hr] at h
      split at h
      · exact .inr (.inl h)
      · exact .inl h
    | ok b =>
      rw [hl, hr] at h
      exact .inl ((ite_self _).symm.trans h)
  | ok a =>
    cases hr : r.eval table with
    | error cause =>
      rw [hl, hr] at h
      exact .inr (.inl ((ite_self _).symm.trans h))
    | ok b =>
      rw [hl, hr] at h
      exact .inr (.inr ⟨a, b, rfl, rfl, (ite_self _).symm.trans h⟩)

end

end Tree

end ArithTree
