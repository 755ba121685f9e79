import ArithTree.Error

/-!
# Frontiers

What a parser could not find, kept for the furthest place only: one report holds everything that
was looked for there. Frontiers join by `merge`, which keeps the further one and, at one place,
the expectations of both.
-/

namespace ArithTree

/-- Everything that was expected where `left` characters are left. -/
structure Report where
  left : Nat
  expected : List Expected
  deriving DecidableEq, Repr

/-- The furthest report, if there is any. -/
abbrev Frontier := Option Report

namespace Frontier

/-- The expectations of both lists, each once if that holds of either list. -/
def union (a b : List Expected) : List Expected :=
  a ++ b.filter fun x => !a.contains x

/-- The further of two reports, or their union at one place. -/
def join (a b : Report) : Report :=
  if a.left < b.left then a
  else if b.left < a.left then b
  else ⟨a.left, union a.expected b.expected⟩

/-- The furthest reports of two frontiers. -/
def merge : Frontier → Frontier → Frontier
  | none, f => f
  | some a, none => some a
  | some a, some b => some (join a b)

@[simp] theorem merge_none (f : Frontier) : merge f none = f := by
  cases f <;> rfl

@[simp] theorem none_merge (f : Frontier) : merge none f = f := rfl

@[simp] theorem left_join (a b : Report) : (join a b).left = min a.left b.left := by
  unfold join
  split
  · exact (Nat.min_eq_left (by omega)).symm
  · split
    · exact (Nat.min_eq_right (by omega)).symm
    · show a.left = min a.left b.left
      omega

end Frontier

end ArithTree
