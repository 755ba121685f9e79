import ArithTree.Evaluation

/-!
# Nodes

A node is a literal or an operator over two nodes named by their indices. In an array of nodes an
operand is an earlier node than its operator, and so there is a tree below every node: `treeAt?`
unfolds it, while `evalAt` and `walkAt` go through it in place and `sameAt` goes through two of them
in step. `Tree.layout` lists the nodes of a tree with operands before their operator, so the last
node is the root.
-/

namespace ArithTree

/-- A node of a numbered list of nodes. -/
inductive Node where
  | lit (value : Int64)
  | branch (op : Op) (left right : Nat)
  deriving DecidableEq, Repr

namespace Node

/-- The indices of the operands. -/
def operands : Node → List Nat
  | .lit _ => []
  | .branch _ l r => [l, r]

/-! ## What stands below a node -/

/-- The tree below a node. It has none if an operand is not an earlier node. -/
def treeAt? (nodes : Array Node) (index : Nat) : Option Tree :=
  match nodes[index]? with
  | none => none
  | some (.lit v) => some (.lit v)
  | some (.branch op l r) =>
    if l < index ∧ r < index then do
      let left ← treeAt? nodes l
      let right ← treeAt? nodes r
      return .node op left right
    else none
termination_by index

/-- The value of the tree below a node, which is not unfolded for it. -/
def evalAt (table : OpTable) (nodes : Array Node) (index : Nat) : Except Error Int64 :=
  match nodes[index]? with
  | none => .error .foreignOperand
  | some (.lit v) => .ok v
  | some (.branch op l r) =>
    if l < index ∧ r < index then
      match table.find op with
      | none => .error (.unknownOperator op.keyword 2)
      | some f =>
        match op with
        | .div => do
          let divisor ← evalAt table nodes r
          let dividend ← evalAt table nodes l
          f dividend divisor
        | _ => do
          let left ← evalAt table nodes l
          let right ← evalAt table nodes r
          f left right
    else .error .foreignOperand
termination_by index

/-- The nodes below a node with their indices, every operator before its operands. -/
def walkAt (nodes : Array Node) (index : Nat) : List (Nat × Node) :=
  match nodes[index]? with
  | none => []
  | some (.lit v) => [(index, .lit v)]
  | some (.branch op l r) =>
    if l < index ∧ r < index then
      (index, .branch op l r) :: (walkAt nodes l ++ walkAt nodes r)
    else []
termination_by index

/-- Whether the trees below two nodes are equal. Neither is unfolded for it. -/
def sameAt (nodes : Array Node) (index : Nat) (others : Array Node) (other : Nat) : Bool :=
  match nodes[index]?, others[other]? with
  | some (.lit v), some (.lit w) => v == w
  | some (.branch op l r), some (.branch op' l' r') =>
    if (l < index ∧ r < index) ∧ l' < other ∧ r' < other then
      op == op' && sameAt nodes l others l' && sameAt nodes r others r'
    else false
  | _, _ => false
termination_by index

section
variable {nodes : Array Node} {i : Nat}

theorem treeAt?_eq_lit {v : Int64} :
    treeAt? nodes i = some (.lit v) ↔ nodes[i]? = some (.lit v) := by
  rw [treeAt?]
  split
  · rename_i h
    simp [h]
  · rename_i w h
    simp [h]
  · rename_i op l r h
    simp only [h, Option.some.injEq, reduceCtorEq, iff_false]
    split <;> simp [Option.bind_eq_some_iff]

theorem treeAt?_eq_node {op : Op} {t u : Tree} :
    treeAt? nodes i = some (.node op t u) ↔
      ∃ l r, nodes[i]? = some (.branch op l r) ∧ (l < i ∧ r < i) ∧
        treeAt? nodes l = some t ∧ treeAt? nodes r = some u := by
  rw [treeAt?]
  split
  · rename_i h
    simp [h]
  · rename_i w h
    simp [h]
  · rename_i op' l r h
    simp only [h, Option.some.injEq, branch.injEq]
    constructor
    · intro hs
      split at hs
      · rename_i hlt
        simp only [Option.bind_eq_bind, Option.bind_eq_some_iff, Option.pure_def,
          Option.some.injEq, Tree.node.injEq] at hs
        obtain ⟨t', ht, u', hu, rfl, rfl, rfl⟩ := hs
        exact ⟨l, r, ⟨rfl, rfl, rfl⟩, hlt, ht, hu⟩
      · cases hs
    · rintro ⟨_, _, ⟨rfl, rfl, rfl⟩, hlt, ht, hu⟩
      rw [if_pos hlt, ht, hu]
      rfl

/-- Nodes that are added later change nothing below an earlier one. -/
theorem treeAt?_append {t : Tree} (h : treeAt? nodes i = some t) (more : Array Node) :
    treeAt? (nodes ++ more) i = some t := by
  have getElem?_append {j : Nat} {n : Node} (hn : nodes[j]? = some n) :
      (nodes ++ more)[j]? = some n := by
    rw [Array.getElem?_append_left (Array.getElem?_eq_some_iff.1 hn).1, hn]
  induction t generalizing i with
  | lit v => exact treeAt?_eq_lit.2 (getElem?_append (treeAt?_eq_lit.1 h))
  | node op t u iht ihu =>
    obtain ⟨l, r, hn, hlt, ht, hu⟩ := treeAt?_eq_node.1 h
    exact treeAt?_eq_node.2 ⟨l, r, getElem?_append hn, hlt, iht ht, ihu hu⟩

theorem lt_size_of_treeAt? {t : Tree} (h : treeAt? nodes i = some t) : i < nodes.size := by
  cases t with
  | lit v => exact (Array.getElem?_eq_some_iff.1 (treeAt?_eq_lit.1 h)).1
  | node op t u =>
    obtain ⟨_, _, hn, -⟩ := treeAt?_eq_node.1 h
    exact (Array.getElem?_eq_some_iff.1 hn).1

end

end Node

namespace Tree

/-- The index of the root if the nodes are numbered from `start`. -/
def rootFrom (start : Nat) (t : Tree) : Nat := start + t.size - 1

/-- The nodes of a tree, numbered from `start`: those of the left operand, those of the right
operand, and then the operator. -/
def layout (start : Nat) : Tree → List Node
  | .lit v => [.lit v]
  | .node op l r =>
    l.layout start ++ r.layout (start + l.size) ++
      [.branch op (l.rootFrom start) (r.rootFrom (start + l.size))]

@[simp] theorem length_layout (t : Tree) (start : Nat) : (t.layout start).length = t.size := by
  induction t generalizing start with
  | lit => rfl
  | node op l r hl hr => simp [layout, hl, hr]; omega

end Tree

end ArithTree
