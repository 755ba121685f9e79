import ArithTree.Proofs.Sampling.Division
import Mathlib.Algebra.Group.Nat.Defs

/-!
# The shape of sampled expressions

A sampled tree is full but for the divisors that were replaced: `t.Stands level seat s` says where the
subtree `s` stands in `t`, and `Tree.FullButDivisors levels t` that a leaf above the last level is the
right operand of a division, while every other operand heads a subtree with all the levels that are
left for it. One step down keeps this (`Grown.operands`), so it holds wherever a subtree stands
(`Grown.stands`). The number of nodes is odd and between that of a chain and that of a full tree, as
for any tree.
-/

namespace ArithTree

open ArithTree.Random

/-! ## Places in trees -/

/-- What a subtree is to the node above it. -/
inductive Seat where
  | root
  | left (op : Op)
  | right (op : Op)
  deriving DecidableEq, Repr

namespace Tree

/-- The subtree `s` of `t` stands at a level and in a seat; the root is at level one. -/
inductive Stands (t : Tree) : (level : Nat) → Seat → (s : Tree) → Prop
  | root : Stands t 1 .root t
  | left {level : Nat} {seat : Seat} {op : Op} {l r : Tree} :
    Stands t level seat (.node op l r) → Stands t (level + 1) (.left op) l
  | right {level : Nat} {seat : Seat} {op : Op} {l r : Tree} :
    Stands t level seat (.node op l r) → Stands t (level + 1) (.right op) r

/-- Every subtree stands somewhere. -/
theorem Stands.exists_of_mem {t u s : Tree} {level : Nat} {seat : Seat} (h : t.Stands level seat u)
    (hs : s ∈ u.subtrees) : ∃ level seat, t.Stands level seat s := by
  induction u generalizing level seat with
  | lit v =>
    rw [List.mem_singleton.1 hs]
    exact ⟨level, seat, h⟩
  | node op l r ihl ihr =>
    rcases mem_subtrees_node.1 hs with rfl | hs | hs
    · exact ⟨level, seat, h⟩
    · exact ihl h.left hs
    · exact ihr h.right hs

/-- All literals lie between one and ten, and the tree is full down to the last level but for literals
that divide. -/
structure FullButDivisors (levels : Nat) (t : Tree) : Prop where
  depth : t.depth = levels
  literals : ∀ v, .lit v ∈ t.subtrees → 1 ≤ v.toInt ∧ v.toInt ≤ 10
  leaves : ∀ level seat v, t.Stands level seat (.lit v) → level < levels → seat = .right .div
  operands : ∀ level seat s, t.Stands level seat s → seat ≠ .right .div →
    level ≤ levels ∧ s.depth = levels - level + 1

/-! ## Numbers of nodes -/

theorem size_mod_two (t : Tree) : t.size % 2 = 1 := by
  induction t with
  | lit v => rfl
  | node op l r ihl ihr =>
    rw [size_node]
    omega

/-- A chain has the fewest nodes. -/
theorem two_mul_depth_le (t : Tree) : 2 * t.depth ≤ t.size + 1 := by
  induction t with
  | lit v => simp
  | node op l r ihl ihr =>
    have := l.size_pos
    have := r.size_pos
    rw [depth_node, size_node]
    omega

/-- A full tree has the most nodes. -/
theorem size_lt_two_pow (t : Tree) : t.size < 2 ^ t.depth := by
  induction t with
  | lit v => simp
  | node op l r ihl ihr =>
    have hl : 2 ^ l.depth ≤ 2 ^ max l.depth r.depth :=
      Nat.pow_le_pow_right (by decide) (Nat.le_max_left ..)
    have hr : 2 ^ r.depth ≤ 2 ^ max l.depth r.depth :=
      Nat.pow_le_pow_right (by decide) (Nat.le_max_right ..)
    rw [depth_node, size_node, Nat.add_comm 1, Nat.pow_succ]
    omega

end Tree

/-! ## Grown trees -/

section
variable {levels level : Nat} {op : Op} {l r s t : Tree} {seat : Seat}

/-- No level and one level are the same. -/
theorem Grown.max_one (h : Grown levels t) : Grown (max 1 levels) t := by
  cases h with
  | literal hle hv => exact .literal (by omega) hv
  | operator hl hr hdiv => exact .operator hl hr hdiv
  | quotient hl hv => exact .quotient hl hv

/-- Both operands are grown with one level less, unless the right one is a literal that divides. -/
theorem Grown.operands (h : Grown levels (.node op l r)) :
    ∃ m, levels = m + 2 ∧ Grown (m + 1) l ∧
      (Grown (m + 1) r ∨ op = .div ∧ ∃ v, IsDrawn v ∧ r = .lit v) := by
  cases h with
  | operator hl hr _ => exact ⟨_, rfl, hl, .inl hr⟩
  | quotient hl hv => exact ⟨_, rfl, hl, .inr ⟨rfl, _, hv, rfl⟩⟩

theorem Grown.stands (h : Grown levels t) (hpos : 0 < levels) (hs : t.Stands level seat s) :
    (level ≤ levels ∧ Grown (levels + 1 - level) s) ∨
      seat = .right .div ∧ ∃ v, IsDrawn v ∧ s = .lit v := by
  induction hs with
  | root => exact .inl ⟨hpos, h⟩
  | left _ ih =>
    rcases ih with ⟨hle, hnode⟩ | ⟨-, v, -, hlit⟩
    · obtain ⟨m, hm, hl, -⟩ := hnode.operands
      refine .inl ⟨by omega, ?_⟩
      rwa [show levels + 1 - (_ + 1) = m + 1 by omega]
    · cases hlit
  | right _ ih =>
    rcases ih with ⟨hle, hnode⟩ | ⟨-, v, -, hlit⟩
    · obtain ⟨m, hm, -, hr | ⟨rfl, hlit⟩⟩ := hnode.operands
      · refine .inl ⟨by omega, ?_⟩
        rwa [show levels + 1 - (_ + 1) = m + 1 by omega]
      · exact .inr ⟨rfl, hlit⟩
    · cases hlit

/-- A grown literal is on the last level. -/
theorem Grown.lit {v : Int64} (h : Grown levels (.lit v)) : levels ≤ 1 ∧ IsDrawn v := by
  cases h with
  | literal hle hv => exact ⟨hle, hv⟩

theorem Grown.fullButDivisors (h : Grown levels t) : t.FullButDivisors (max 1 levels) := by
  have hpos : 0 < max 1 levels := by omega
  constructor
  case depth => exact h.depth_eq
  case literals =>
    intro v hv
    obtain ⟨level, seat, hs⟩ := Tree.Stands.root.exists_of_mem hv
    rcases h.max_one.stands hpos hs with ⟨-, hlit⟩ | ⟨-, _, hdrawn, ⟨⟩⟩
    · exact hlit.lit.2
    · exact hdrawn
  case leaves =>
    intro level seat v hs hlt
    rcases h.max_one.stands hpos hs with ⟨-, hlit⟩ | ⟨hseat, -⟩
    · have := hlit.lit.1
      omega
    · exact hseat
  case operands =>
    intro level seat s hs hseat
    obtain ⟨hle, hgrown⟩ := (h.max_one.stands hpos hs).resolve_right fun h => hseat h.1
    refine ⟨hle, ?_⟩
    rw [hgrown.depth_eq]
    omega

end

/-! ## Sampled arenas -/

/-- **Sampled expressions are full but for some divisors.** If the draws end, there is an expression of
exactly the depth that was asked for, at least one and at most `maxDepth`; its literals lie between one
and ten, and only divisors have fewer levels than are left where they stand. The number of nodes in its
arena is odd and lies between those of a chain and of a full tree. -/
theorem Sampler.sampleArena_shape {σ : Type} [Source σ] (g : Sampler σ) (depth : Nat) :
    (∀ result g', g.sampleArena depth = some (result, g') →
      ∃ a levels, result = .ok a ∧ levels = max 1 (min depth maxDepth) ∧
        a.expr.tree.FullButDivisors levels ∧
        a.nodes.size % 2 = 1 ∧ 2 * levels - 1 ≤ a.nodes.size ∧ a.nodes.size ≤ 2 ^ levels - 1) ∧
    (g.sampleArena depth = none → RunsOut g.patience g.source) := by
  refine ⟨fun result g' h => ?_, fun h => sample_eq_none (by rw [sample, h]; rfl)⟩
  obtain ⟨-, -, e, rfl, hgrown⟩ := sampleArena_eq_some h
  have hfull := hgrown.fullButDivisors
  have hsize : (Arena.ofExpr e).nodes.size = e.tree.size := by simp
  have hlow := e.tree.two_mul_depth_le
  have hhigh := e.tree.size_lt_two_pow
  rw [hfull.depth] at hlow hhigh
  refine ⟨.ofExpr e, _, rfl, rfl, hfull, hsize ▸ e.tree.size_mod_two, ?_, ?_⟩
  · omega
  · omega

/-- A script that draws `(1 + 1) / (1 - 1)`: the divisor is replaced. -/
theorem Sampler.sampleArena_shape_script :
    let g : Sampler Script :=
      { source := { words := [0xC000000000000000, 0, 0, 0, 0x4000000000000000] }, patience := 6 }
    ∃ a g', g.sampleArena 3 = some (.ok a, g') ∧ a.expr.tree.FullButDivisors 3 ∧
      5 ≤ a.nodes.size ∧ a.nodes.size ≤ 7 := by
  intro g
  obtain ⟨hshape, hnone⟩ := Sampler.sampleArena_shape g 3
  cases h : g.sampleArena 3 with
  | none => exact absurd (hnone h) (Script.not_runsOut (by decide))
  | some sampled =>
    obtain ⟨result, g'⟩ := sampled
    obtain ⟨a, levels, rfl, rfl, hfull, -, hlow, hhigh⟩ := hshape result g' h
    exact ⟨a, g', rfl, hfull, hlow, hhigh⟩

end ArithTree
