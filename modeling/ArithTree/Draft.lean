import ArithTree.Arena

/-!
# Drafts

A draft collects nodes one after the other, and the part below one of them can be extracted to an
arena of its own. Nodes are named by handles, which carry the owner that issued them; a draft takes
no handle of another owner. A node may serve as an operand more than once, and extraction copies it
once for every use. The depth below each node is kept beside it, so the depth limit is checked
without a look at the nodes below. What is read off a text is drafted and extracted
(`Arena.ofRead`); a literal and an operator over two expressions are drafts that are used as they
are, `Arena.number` and `Arena.combine`.
-/

namespace ArithTree

/-- A name for a node, good for its owner only. -/
structure Handle where
  owner : Nat
  index : Nat
  deriving DecidableEq, Repr

/-- Nodes and the depth below each of them. -/
structure Draft where
  owner : Nat
  nodes : Array Node := #[]
  depths : Array Nat := #[]
  deriving Repr

namespace Draft

/-- Whether a handle names a node of the draft. -/
def owns (d : Draft) (h : Handle) : Bool := h.owner == d.owner && h.index < d.nodes.size

/-- The recorded depth of a node. -/
def depthAt (d : Draft) (index : Nat) : Nat := d.depths[index]?.getD 0

/-- The depth that a node over earlier ones has. -/
def depthOf (d : Draft) : Node → Nat
  | .lit _ => 1
  | .branch _ l r => 1 + max (d.depthAt l) (d.depthAt r)

def push (d : Draft) (n : Node) : Handle × Draft :=
  (⟨d.owner, d.nodes.size⟩,
    { d with nodes := d.nodes.push n, depths := d.depths.push (d.depthOf n) })

def lit (d : Draft) (value : Int64) : Handle × Draft := d.push (.lit value)

/-- Adds an operator over two nodes. A foreign operand is found before the depth is looked at. -/
def combine (d : Draft) (op : Op) (l r : Handle) : Except Error (Handle × Draft) :=
  if d.owns l && d.owns r then
    let n := Node.branch op l.index r.index
    if d.depthOf n ≤ maxDepth then .ok (d.push n) else .error .tooDeep
  else .error .foreignOperand

/-- Adds the nodes of a tree, operands before their operator. -/
def addTree (d : Draft) : Tree → Handle × Draft
  | .lit v => d.lit v
  | .node op l r =>
    let (left, d) := d.addTree l
    let (right, d) := d.addTree r
    d.push (.branch op left.index right.index)

/-! ## Copies -/

/-- Adds a copy of what stands below a node of `source`: operands before their operator, and a node
once for every use. There is no copy if an operand is not an earlier node. -/
def copyAt? (source : Array Node) (index : Nat) (d : Draft) : Option (Handle × Draft) :=
  match source[index]? with
  | none => none
  | some (.lit v) => some (d.lit v)
  | some (.branch op l r) =>
    if l < index ∧ r < index then do
      let (left, d) ← copyAt? source l d
      let (right, d) ← copyAt? source r d
      return d.push (.branch op left.index right.index)
    else none
termination_by index

/-- A copy adds the nodes of the tree that stands there. -/
theorem copyAt?_eq (source : Array Node) (i : Nat) (d : Draft) :
    copyAt? source i d = (Node.treeAt? source i).map d.addTree := by
  induction i using Nat.strongRecOn generalizing d with
  | ind i ih =>
    rw [copyAt?, Node.treeAt?]
    cases source[i]? with
    | none => rfl
    | some n =>
      cases n with
      | lit v => rfl
      | branch op l r =>
        by_cases hlt : l < i ∧ r < i
        · simp only [if_pos hlt, ih l hlt.1, ih r hlt.2]
          cases Node.treeAt? source l <;> cases Node.treeAt? source r <;> rfl
        · simp only [if_neg hlt, Option.map_none]

/-- Adds a copy of an expression. -/
def copy (d : Draft) (a : Arena) : Handle × Draft :=
  (copyAt? a.nodes a.root d).get (by simp [copyAt?_eq, a.treeAt?_root])

theorem copy_eq (d : Draft) (a : Arena) : d.copy a = d.addTree a.expr.tree := by
  simp [copy, copyAt?_eq, a.treeAt?_root]

/-- Copies what stands below a node into an arena of its own. The other nodes are dropped. -/
def extract (d : Draft) (root : Handle) : Except Error Arena :=
  if d.owns root then
    match copyAt? d.nodes root.index { owner := d.owner } with
    | some (top, extracted) => Arena.ofNodes extracted.nodes top.index
    | none => .error .foreignOperand
  else .error .foreignOperand

/-! ## Requests -/

/-- What can be asked of a draft before a part of it is extracted. -/
inductive Request where
  | lit (value : Int64)
  | combine (op : Op) (left right : Handle)
  | copy (a : Arena)

/-- The handle that a request gives, and the draft after it. A refusal leaves the draft as it was. -/
def serve (d : Draft) : Request → Except Error Handle × Draft
  | .lit v => let (h, d) := d.lit v; (.ok h, d)
  | .combine op l r =>
    match d.combine op l r with
    | .ok (h, d) => (.ok h, d)
    | .error e => (.error e, d)
  | .copy a => let (h, d) := d.copy a; (.ok h, d)

/-- The draft after requests one after the other. -/
def serveAll (d : Draft) (requests : List Request) : Draft :=
  requests.foldl (fun d request => (d.serve request).2) d

/-! ## Trees in a draft -/

@[simp] theorem nodes_push (d : Draft) (n : Node) : (d.push n).2.nodes = d.nodes.push n := rfl

@[simp] theorem index_push (d : Draft) (n : Node) : (d.push n).1.index = d.nodes.size := rfl

theorem nodes_addTree (d : Draft) (t : Tree) :
    (d.addTree t).2.nodes = d.nodes ++ (t.layout d.nodes.size).toArray ∧
      (d.addTree t).1.index = t.rootFrom d.nodes.size := by
  induction t generalizing d with
  | lit v => simp [addTree, lit, Tree.layout, Tree.rootFrom]
  | node op l r ihl ihr =>
    obtain ⟨hl, hlroot⟩ := ihl d
    obtain ⟨hr, hrroot⟩ := ihr (d.addTree l).2
    have hsize : (d.addTree l).2.nodes.size = d.nodes.size + l.size := by simp [hl]
    rw [hsize] at hr hrroot
    rw [hl] at hr
    constructor
    · simp [addTree, hr, hlroot, hrroot, Tree.layout]
    · simp only [addTree, index_push, hr, Array.size_append, List.size_toArray, Tree.length_layout,
        Tree.rootFrom, Tree.size_node]
      omega

/-- A tree that was added is the tree below its root. -/
theorem treeAt?_addTree (d : Draft) (t : Tree) :
    Node.treeAt? (d.addTree t).2.nodes (d.addTree t).1.index = some t := by
  induction t generalizing d with
  | lit v => exact Node.treeAt?_eq_lit.2 (by simp [addTree, lit])
  | node op l r ihl ihr =>
    have hl : Node.treeAt? ((d.addTree l).2.addTree r).2.nodes (d.addTree l).1.index = some l := by
      rw [(nodes_addTree _ r).1]
      exact Node.treeAt?_append (ihl d) _
    have hr := ihr (d.addTree l).2
    refine Node.treeAt?_eq_node.2 ⟨(d.addTree l).1.index, ((d.addTree l).2.addTree r).1.index, ?_,
      ⟨Node.lt_size_of_treeAt? hl, Node.lt_size_of_treeAt? hr⟩, ?_, ?_⟩
    · simp [addTree]
    · rw [addTree, nodes_push, Array.push_eq_append]
      exact Node.treeAt?_append hl _
    · rw [addTree, nodes_push, Array.push_eq_append]
      exact Node.treeAt?_append hr _

end Draft

namespace Arena

/-- The arena of an expression that is read off a text: its nodes are added to a draft one by one,
operands before their operator, and the part below the root is extracted. -/
def ofRead (e : Expr) : Except Error Arena :=
  let (root, d) := ({ owner := 0 } : Draft).addTree e.tree
  d.extract root

/-- The arena of a literal: a draft with one node, as it is. -/
def number (value : Int64) : Arena :=
  let added := ({ owner := 0 } : Draft).lit value
  ⟨added.2.nodes, added.1.index, .number value, Draft.treeAt?_addTree _ (.lit value)⟩

/-- The arena of an operator over two expressions: a draft with a copy of each of them and the
operator, as it is. -/
def combine (op : Op) (l r : Arena) : Except Error Arena := do
  let (left, d) := ({ owner := 0 } : Draft).copy l
  let (right, d) := d.copy r
  let (root, d) ← d.combine op left right
  ofNodes d.nodes root.index

end Arena

end ArithTree
