import ArithTree.Draft
import ArithTree.Random.Draw

/-!
# Sampling expressions

A sampler grows random trees in a draft, full but for some divisors. The operator of a node is drawn
first, then its left operand is grown, then its right one. A divisor without a nonzero value is
replaced by a fresh literal when it is complete, and its nodes stay behind in the draft; literals lie
between one and ten, so what replaces a divisor is never zero. A sampler holds its source of words
and the patience of each draw. Without a result, that patience was not enough.
-/

namespace ArithTree

open ArithTree.Random

/-- A source of words and the words that one draw may take. -/
structure Sampler (σ : Type) where
  source : σ
  patience : Nat := 1 <<< 62

/-- Random steps that add nodes to a draft and may be refused. -/
abbrev Growth (σ α : Type) := StateT Draft (ExceptT Error (Draw σ)) α

/-- Whether the tree below a node has a value that can divide. -/
def Draft.canDivide (d : Draft) (h : Handle) : Bool :=
  match Node.evalAt .standard d.nodes h.index with
  | .ok v => v ≠ 0
  | .error _ => false

namespace Sampler

variable {σ : Type} [Source σ]

/-- A literal between one and ten. -/
def literal (patience : Nat) : Growth σ Handle := do
  let k ← (below 10 (by decide) patience : Draw σ _)
  modifyGet fun d => d.lit (Int64.ofNat (k.val + 1))

def operator (patience : Nat) : Growth σ Op := do
  let k ← (below 4 (by decide) patience : Draw σ _)
  return Op.all.get k

/-- The operator over two nodes that are grown. -/
def join (op : Op) (l r : Handle) : Growth σ Handle := fun d =>
  ExceptT.mk (pure (d.combine op l r))

/-- A divisor, or a literal in its place if it cannot divide. -/
def divisor (patience : Nat) (h : Handle) : Growth σ Handle := do
  if (← get).canDivide h then return h else literal patience

/-- The right operand in the end: only a divisor is looked at. -/
def settle (patience : Nat) (op : Op) (h : Handle) : Growth σ Handle :=
  if op = .div then divisor patience h else return h

/-- A tree of the given number of levels, which counts as one if it is zero. -/
def grow (patience : Nat) : (levels : Nat) → Growth σ Handle
  | 0 | 1 => literal patience
  | levels + 2 => do
    let op ← operator patience
    let left ← grow patience (levels + 1)
    let right ← grow patience (levels + 1)
    let right ← settle patience op right
    join op left right

/-- An arena with an expression of the given depth, at most `maxDepth`, and the sampler after it. -/
def sampleArena (g : Sampler σ) (depth : Nat) : Option (Except Error Arena × Sampler σ) := do
  let (grown, source) ← grow g.patience (min depth maxDepth) { owner := 0 } g.source
  return (grown.bind fun (root, d) => d.extract root, { g with source })

/-- An expression of the given depth, at most `maxDepth`, and the sampler after it. -/
def sample (g : Sampler σ) (depth : Nat) : Option (Except Error Expr × Sampler σ) := do
  let (result, g) ← g.sampleArena depth
  return (result.map Arena.expr, g)

/-- What is sampled for the given depths, one after the other, and the sampler after it. -/
def sampleEach (g : Sampler σ) :
    (depths : List Nat) → Option (List (Except Error Expr) × Sampler σ)
  | [] => some ([], g)
  | depth :: depths => do
    let (result, g) ← g.sample depth
    let (results, g) ← g.sampleEach depths
    return (result :: results, g)

/-- The given number of expressions, one after the other; the first error ends them. -/
def sampleMany (g : Sampler σ) (depth : Nat) : (count : Nat) → Option (Except Error (List Expr))
  | 0 => some (.ok [])
  | count + 1 => do
    match ← g.sample depth with
    | (.error e, _) => return .error e
    | (.ok first, g) =>
      let others ← g.sampleMany depth count
      return others.map (first :: ·)

def ofSeed (seed : UInt64) : Sampler Xoshiro := { source := .ofSeed seed }

end Sampler

end ArithTree
