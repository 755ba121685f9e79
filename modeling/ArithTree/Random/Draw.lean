import ArithTree.Random.Words

/-!
# Uniform draws

A uniform number below `n` is the upper half of the product of `n` and a random word. A word whose
lower half lies beyond `acceptance n` is rejected and another one drawn, which makes all numbers
equally likely. How often may be any number of times, so a draw has a `patience`: the words it may
take. It has no result if all of them are rejected.
-/

namespace ArithTree.Random

variable {σ : Type} [Source σ]

/-- Draws that may run out of patience. -/
abbrev Draw (σ α : Type) := StateT σ Option α

def word : Draw σ UInt64 := fun s => some (Source.next s)

/-- The greatest lower half that is accepted: `n`, shifted up to fill 64 bits, less one. -/
def acceptance (n : Nat) : Nat := n <<< (63 - n.log2) - 1

theorem upper_lt {n : Nat} (h : 0 < n) (w : UInt64) : w.toNat * n / UInt64.size < n := by
  refine Nat.div_lt_of_lt_mul ?_
  exact Nat.mul_lt_mul_of_pos_right w.toNat_lt h

/-- A uniform number below `n`. -/
def below (n : Nat) (pos : 0 < n) : (patience : Nat) → Draw σ (Fin n)
  | 0 => fun _ => none
  | patience + 1 => do
    let w ← word
    if w.toNat * n % UInt64.size ≤ acceptance n then
      return ⟨w.toNat * n / UInt64.size, upper_lt pos w⟩
    else below n pos patience

end ArithTree.Random
