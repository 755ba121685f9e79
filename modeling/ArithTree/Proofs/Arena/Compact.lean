import ArithTree.Proofs.Arena.Listing
import ArithTree.Dialect
import ArithTree.Sampler
import Mathlib.Data.List.Nodup
import Mathlib.Logic.Relation

/-!
# Arenas are compact

The nodes that `Tree.layout` lists are a tree: an operand is an earlier node, and the operands of all
nodes together are every node but the root, each once (`operands_layout`), so every other node has
one parent. Going from parent to parent leads to later nodes and ends at the root, so every node is
reached from there. `Arena.Compact` collects what this says of an arena, and `Arena.Obtained` the
ways to make arenas. All of them list the nodes of their expression (`Obtained.eq_ofExpr`) and are
therefore compact (`Obtained.compact`).
-/

open scoped List

namespace ArithTree

/-- The node at `i` is an operand of the node at `p`. -/
def Node.IsOperand (nodes : Array Node) (p i : Nat) : Prop :=
  ∃ n, nodes[p]? = some n ∧ i ∈ n.operands

/-- The node at `i` stands below the node at `p`, or is that node. -/
def Node.Reaches (nodes : Array Node) : Nat → Nat → Prop :=
  Relation.ReflTransGen (Node.IsOperand nodes)

/-! ## Layouts -/

namespace Tree

variable {t : Tree} {start k : Nat} {n : Node}

theorem rootFrom_lt (t : Tree) (start : Nat) : t.rootFrom start < start + t.size := by
  have := t.size_pos
  simp only [rootFrom]
  omega

theorem operands_lt_of_layout (h : (t.layout start)[k]? = some n) :
    ∀ i ∈ n.operands, i < start + k := by
  induction t generalizing start k with
  | lit v =>
    rw [layout, List.getElem?_singleton] at h
    split at h
    · cases h
      simp [Node.operands]
    · cases h
  | node op l r ihl ihr =>
    have hl := l.rootFrom_lt start
    have hr := r.rootFrom_lt (start + l.size)
    rw [layout, List.getElem?_append, List.length_append, length_layout, length_layout] at h
    split at h
    · rw [List.getElem?_append, length_layout] at h
      split at h
      · exact ihl h
      · intro i hi
        have := ihr h i hi
        omega
    · rw [List.getElem?_singleton] at h
      split at h
      · cases h
        simp only [Node.operands, List.mem_cons, List.not_mem_nil, or_false]
        omega
      · cases h

/-- The operands of all nodes are all nodes but the last one, which is the root. -/
theorem operands_layout (t : Tree) (start : Nat) :
    ((t.layout start).flatMap Node.operands).Perm (List.range' start (t.size - 1)) := by
  -- the nodes of a tree are those that its nodes have as operands, and its root
  have range'_size (t : Tree) (start : Nat) :
      List.range' start t.size = List.range' start (t.size - 1) ++ [t.rootFrom start] := by
    have hpos := t.size_pos
    obtain ⟨m, hm⟩ : ∃ m, t.size = m + 1 := ⟨t.size - 1, by omega⟩
    rw [rootFrom, hm, List.range'_1_concat]
    rfl
  induction t generalizing start with
  | lit v => rfl
  | node op l r ihl ihr =>
    have hsplit : List.range' start (l.size + r.size) =
        (List.range' start (l.size - 1) ++ [l.rootFrom start]) ++
          (List.range' (start + l.size) (r.size - 1) ++ [r.rootFrom (start + l.size)]) := by
      rw [← range'_size, ← range'_size, List.range'_append_1]
    rw [size_node, Nat.add_sub_cancel, hsplit, layout, List.flatMap_append, List.flatMap_append,
      List.flatMap_singleton]
    set left := List.range' start (l.size - 1)
    set right := List.range' (start + l.size) (r.size - 1)
    calc (l.layout start).flatMap Node.operands ++
          (r.layout (start + l.size)).flatMap Node.operands ++
          [l.rootFrom start, r.rootFrom (start + l.size)]
      _ ~ left ++ right ++ [l.rootFrom start, r.rootFrom (start + l.size)] :=
          ((ihl start).append (ihr (start + l.size))).append_right _
      _ = left ++ (right ++ l.rootFrom start :: [r.rootFrom (start + l.size)]) := by simp
      _ ~ left ++ l.rootFrom start :: (right ++ [r.rootFrom (start + l.size)]) :=
          List.perm_middle.append_left left
      _ = left ++ [l.rootFrom start] ++ (right ++ [r.rootFrom (start + l.size)]) := by simp

/-! ## Parents -/

theorem lt_of_isOperand_layout {p i : Nat} (h : Node.IsOperand (t.layout 0).toArray p i) :
    i < p := by
  obtain ⟨n, hn, hi⟩ := h
  rw [List.getElem?_toArray] at hn
  have := operands_lt_of_layout hn i hi
  omega

theorem nodup_operands_layout (t : Tree) : ((t.layout 0).flatMap Node.operands).Nodup :=
  (operands_layout t 0).nodup_iff.2 List.nodup_range'

/-- Two nodes have no operand in common. -/
theorem not_isOperand_of_lt {p q i : Nat} (hlt : p < q)
    (hp : Node.IsOperand (t.layout 0).toArray p i) :
    ¬ Node.IsOperand (t.layout 0).toArray q i := by
  rintro ⟨m, hm, him⟩
  obtain ⟨n, hn, hin⟩ := hp
  rw [List.getElem?_toArray] at hn hm
  obtain ⟨hplt, hpn⟩ := List.getElem?_eq_some_iff.1 hn
  obtain ⟨hqlt, hqm⟩ := List.getElem?_eq_some_iff.1 hm
  have hpairs := (List.nodup_flatMap.1 (nodup_operands_layout t)).2
  have hdisjoint := List.pairwise_iff_getElem.1 hpairs p q hplt hqlt hlt
  rw [hpn, hqm] at hdisjoint
  exact hdisjoint hin him

/-- Every node but the root has one parent. -/
theorem existsUnique_parent (t : Tree) {i : Nat} (hi : i < t.size - 1) :
    ∃! p, Node.IsOperand (t.layout 0).toArray p i := by
  have hmem : i ∈ (t.layout 0).flatMap Node.operands := by
    rw [(operands_layout t 0).mem_iff, List.mem_range'_1]
    omega
  obtain ⟨n, hn, hin⟩ := List.mem_flatMap.1 hmem
  obtain ⟨p, hp⟩ := List.mem_iff_getElem?.1 hn
  have hparent : Node.IsOperand (t.layout 0).toArray p i :=
    ⟨n, by rwa [List.getElem?_toArray], hin⟩
  refine ⟨p, hparent, fun q hq => ?_⟩
  rcases Nat.lt_trichotomy q p with hlt | heq | hlt
  · exact absurd hparent (not_isOperand_of_lt hlt hq)
  · exact heq
  · exact absurd hq (not_isOperand_of_lt hlt hparent)

/-- Every node is reached from the root: parents are later nodes, and only the root has none. -/
theorem reaches_layout (t : Tree) {i : Nat} (hi : i < t.size) :
    Node.Reaches (t.layout 0).toArray (t.rootFrom 0) i := by
  induction hd : t.size - i using Nat.strongRecOn generalizing i with
  | ind d ih =>
    by_cases hroot : i = t.size - 1
    · have hi' : i = t.rootFrom 0 := by rw [rootFrom]; omega
      rw [hi']
      exact .refl
    · obtain ⟨p, hp, -⟩ := t.existsUnique_parent (i := i) (by omega)
      have hlt : i < p := lt_of_isOperand_layout hp
      have hpsize : p < t.size := by
        obtain ⟨n, hn, -⟩ := hp
        have := (Array.getElem?_eq_some_iff.1 hn).1
        simpa using this
      exact (ih (t.size - p) (by omega) hpsize rfl).tail hp

end Tree

namespace Arena

/-- The nodes of an arena are those of its tree and nothing else. -/
structure Compact (a : Arena) : Prop where
  postorder : a.nodes.toList = a.expr.tree.layout 0
  root_last : a.root + 1 = a.nodes.size
  size_eq : a.nodes.size = a.expr.size
  depth_le : a.expr.depth ≤ maxDepth
  operand_lt : ∀ p i, Node.IsOperand a.nodes p i → i < p
  parent : ∀ i, i < a.nodes.size → i ≠ a.root → ∃! p, Node.IsOperand a.nodes p i
  once : ∀ n ∈ a.nodes, n.operands.Nodup
  reachable : ∀ i, i < a.nodes.size → Node.Reaches a.nodes a.root i

theorem compact_ofExpr (e : Expr) : (ofExpr e).Compact := by
  have hsize : (ofExpr e).nodes.size = e.tree.size := by simp
  have hroot : (ofExpr e).root + 1 = e.tree.size := by
    have := e.tree.size_pos
    rw [root_ofExpr, Tree.rootFrom]
    omega
  have hexpr : (ofExpr e).expr = e := rfl
  constructor
  case postorder => rw [nodes_ofExpr, hexpr]
  case root_last => rw [hsize, hroot]
  case size_eq => exact hsize
  case depth_le => exact e.depth_le
  case operand_lt =>
    intro p i h
    rw [nodes_ofExpr] at h
    exact Tree.lt_of_isOperand_layout h
  case parent =>
    intro i hi hne
    rw [nodes_ofExpr]
    exact e.tree.existsUnique_parent (by omega)
  case once =>
    intro n hn
    rw [nodes_ofExpr, List.mem_toArray] at hn
    exact (List.nodup_flatMap.1 e.tree.nodup_operands_layout).1 n hn
  case reachable =>
    intro i hi
    rw [nodes_ofExpr, root_ofExpr]
    exact e.tree.reaches_layout (hsize ▸ hi)

/-! ## How arenas are made -/

/-- The arenas that can be made. A clone of an expression is the same arena. -/
inductive Obtained : Arena → Prop
  | number (v : Int64) : Obtained (.number v)
  | combine {op : Op} {l r a : Arena} :
    Obtained l → Obtained r → Arena.combine op l r = .ok a → Obtained a
  | extract {owner : Nat} {requests : List Draft.Request} {root : Handle} {a : Arena} :
    (∀ b, Draft.Request.copy b ∈ requests → Obtained b) →
    (({ owner } : Draft).serveAll requests).extract root = .ok a → Obtained a
  | lower {form : Form} {a : Arena} : form.toExpr.bind ofRead = .ok a → Obtained a
  | read {dialect : Dialect} {source : String} {a : Arena} :
    (dialect.read source).bind ofRead = .ok a → Obtained a
  | sample {σ : Type} [Random.Source σ] {g g' : Sampler σ} {depth : Nat} {a : Arena} :
    g.sampleArena depth = some (.ok a, g') → Obtained a

theorem combine_eq_ok {op : Op} {l r a : Arena} : Arena.combine op l r = .ok a ↔
    a.expr.tree = .node op l.expr.tree r.expr.tree ∧ a = .ofExpr a.expr := by
  rw [combine_eq]
  constructor
  · intro h
    cases hc : Expr.combine op l.expr r.expr with
    | error err => rw [hc] at h; cases h
    | ok e =>
      rw [hc] at h
      cases h
      exact ⟨Expr.combine_eq_ok.1 hc, rfl⟩
  · rintro ⟨htree, ha⟩
    rw [Expr.combine_eq_ok.2 htree, ha]
    rfl

theorem exists_combine_eq_ok {op : Op} {l r : Arena} :
    (∃ a, Arena.combine op l r = .ok a) ↔ 1 + max l.expr.depth r.expr.depth ≤ maxDepth := by
  constructor
  · rintro ⟨a, ha⟩
    have hle := a.expr.depth_le
    rwa [(combine_eq_ok.1 ha).1] at hle
  · intro hle
    exact ⟨.ofExpr ⟨.node op l.expr.tree r.expr.tree, hle⟩, combine_eq_ok.2 ⟨rfl, rfl⟩⟩

theorem eq_ofExpr_of_read {reading : Except Error Expr} {a : Arena}
    (h : reading.bind ofRead = .ok a) : a = .ofExpr a.expr := by
  cases reading with
  | error err => cases h
  | ok e =>
    rw [Except.bind, ofRead_eq] at h
    cases h
    rfl

/-- However an arena is made, it lists the nodes of its expression. -/
theorem Obtained.eq_ofExpr {a : Arena} (h : Obtained a) : a = .ofExpr a.expr := by
  cases h with
  | number v => exact number_eq v
  | combine _ _ h => exact (combine_eq_ok.1 h).2
  | extract _ h => exact (Draft.extract_eq_ok h).2
  | lower h => exact eq_ofExpr_of_read h
  | read h => exact eq_ofExpr_of_read h
  | sample h =>
    simp only [Sampler.sampleArena, Option.bind_eq_bind, Option.bind_eq_some_iff,
      Option.pure_def, Option.some.injEq, Prod.mk.injEq] at h
    obtain ⟨⟨grown, source⟩, -, h, -⟩ := h
    cases grown with
    | error err => cases h
    | ok grown => exact (Draft.extract_eq_ok h).2

theorem Obtained.compact {a : Arena} (h : Obtained a) : a.Compact := by
  rw [h.eq_ofExpr]
  exact compact_ofExpr a.expr

end Arena

/-- The limit never stands against an extraction: what stands in a draft keeps it already. -/
theorem Draft.Sound.extract {d : Draft} {root : Handle} (hs : d.Sound) (howns : d.owns root) :
    ∃ a, d.extract root = .ok a ∧ d.Holds root a.expr.tree := by
  obtain ⟨t, ht⟩ := hs.holds howns
  have hle : t.depth ≤ maxDepth := hs.depth_le ht
  exact ⟨.ofExpr ⟨t, hle⟩, Holds.extract ht, ht⟩

/-- **Arenas are compact.** Every arena that can be made lists the nodes of its tree in post-order
and nothing else. An extraction of a node of its draft succeeds with the tree of the node. An
operator over two expressions is refused exactly for its depth, and otherwise stands over their
trees. -/
theorem Arena.compact_of_obtained :
    (∀ a, Obtained a → a.Compact) ∧
    (∀ owner requests root, (({ owner } : Draft).serveAll requests).owns root →
      ∃ a, (({ owner } : Draft).serveAll requests).extract root = .ok a ∧
        (({ owner } : Draft).serveAll requests).Holds root a.expr.tree) ∧
    ∀ op l r,
      ((∃ a, Arena.combine op l r = .ok a) ↔ 1 + max l.expr.depth r.expr.depth ≤ maxDepth) ∧
      ∀ a, Arena.combine op l r = .ok a → a.expr.tree = .node op l.expr.tree r.expr.tree := by
  refine ⟨fun a h => h.compact, fun owner requests root howns => ?_, fun op l r => ?_⟩
  · exact ((Draft.sound_empty owner).serveAll requests).1.extract howns
  · refine ⟨exists_combine_eq_ok, fun a ha => ?_⟩
    exact (combine_eq_ok.1 ha).1

/-- A literal added to itself is a compact arena of three nodes. -/
theorem Arena.compact_of_obtained_double :
    1 + max (number 1).expr.depth (number 1).expr.depth ≤ maxDepth ∧
    ∃ a, Arena.combine .add (.number 1) (.number 1) = .ok a ∧ a.Compact ∧
      a.expr.tree = .node .add (.lit 1) (.lit 1) := by
  obtain ⟨compact, -, combines⟩ := Arena.compact_of_obtained
  obtain ⟨succeeds, stands⟩ := combines .add (number 1) (number 1)
  have hle : 1 + max (number 1).expr.depth (number 1).expr.depth ≤ maxDepth := by decide
  obtain ⟨a, ha⟩ := succeeds.2 hle
  exact ⟨hle, a, ha, compact a (.combine (.number 1) (.number 1) ha), stands a ha⟩

end ArithTree
