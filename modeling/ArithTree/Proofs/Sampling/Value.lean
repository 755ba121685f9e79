import ArithTree.Proofs.Grade.Code
import ArithTree.Proofs.Sampling.Division
import Mathlib.Algebra.Group.Nat.Defs

/-!
# Shallow samples have a value

Every operator at most squares a bound on the magnitudes of its operands (`Op.natAbs_value?_le`), and
literals are at most ten, so the magnitude of what is grown with `n + 1` levels is at most
`10 ^ 2 ^ n`. Up to five levels this keeps within 64 bits. No divisor is zero, so such a tree has a
value (`Grown.exists_value`), and it is graded as equal to itself when it is written as a call.
-/

namespace ArithTree

open ArithTree.Random

/-! ## Magnitudes -/

/-- The greatest magnitude that a tree of so many levels can have. -/
def magnitude (levels : Nat) : Nat := 10 ^ 2 ^ (levels - 1)

theorem magnitude_succ (levels : Nat) :
    magnitude (levels + 2) = magnitude (levels + 1) * magnitude (levels + 1) := by
  rw [magnitude, magnitude, Nat.add_sub_cancel, Nat.add_sub_assoc (by decide : 1 ≤ 2), Nat.pow_succ,
    Nat.mul_two, Nat.pow_add]

theorem ten_le_magnitude (levels : Nat) : 10 ≤ magnitude levels :=
  Nat.le_pow (Nat.two_pow_pos _)

theorem inRange_of_magnitude {levels : Nat} {x : Int} (hle : levels ≤ 5)
    (hx : x.natAbs ≤ magnitude levels) : InRange x := by
  have hpow : magnitude levels ≤ 10 ^ 2 ^ 4 :=
    Nat.pow_le_pow_right (by decide) (Nat.pow_le_pow_right (by decide) (by omega))
  unfold InRange
  omega

theorem Op.natAbs_value?_le {op : Op} {x y z : Int} {b : Nat} (h : op.value? x y = some z)
    (hx : x.natAbs ≤ b) (hy : y.natAbs ≤ b) (hb : 2 ≤ b) : z.natAbs ≤ b * b := by
  have hdouble : b + b ≤ b * b := by
    rw [← Nat.two_mul]
    exact Nat.mul_le_mul_right b hb
  cases op with
  | add =>
    cases h
    have := Int.natAbs_add_le x y
    omega
  | sub =>
    cases h
    have := Int.natAbs_sub_le x y
    omega
  | mul =>
    cases h
    rw [Int.natAbs_mul]
    exact Nat.mul_le_mul hx hy
  | div =>
    rw [value?] at h
    split at h
    · cases h
    · cases h
      have := Int.natAbs_tdiv_le_natAbs x y
      omega

/-- Only a zero divisor is in the way of a value. -/
theorem Op.exists_value? {op : Op} {y : Int} (x : Int) (h : op = .div → y ≠ 0) :
    ∃ z, op.value? x y = some z := by
  cases op with
  | div => exact ⟨_, if_neg (h rfl)⟩
  | _ => exact ⟨_, rfl⟩

/-! ## Grown trees -/

theorem IsDrawn.natAbs_le {v : Int64} (hv : IsDrawn v) : v.toInt.natAbs ≤ 10 := by
  obtain ⟨hlow, hhigh⟩ := hv
  omega

theorem Tree.CanDivide.ne_zero {t : Tree} {x : Int} (h : t.CanDivide) (hx : t.ExactInRange x) :
    x ≠ 0 := by
  obtain ⟨v, hv, hne⟩ := h
  have hexact : t.ExactInRange v.toInt := Tree.eval_standard_eq_ok.1 hv
  have heq : x = v.toInt := Option.some.inj (hx.1.symm.trans hexact.1)
  rw [heq]
  exact mt toInt_eq_zero_iff.1 hne

/-- An operator over operands of bounded magnitude has a value, and its magnitude is bounded by the
next level. -/
theorem exactInRange_operator {levels : Nat} {op : Op} {l r : Tree} {x y : Int}
    (hle : levels + 2 ≤ 5) (hl : l.ExactInRange x) (hx : x.natAbs ≤ magnitude (levels + 1))
    (hr : r.ExactInRange y) (hy : y.natAbs ≤ magnitude (levels + 1)) (hne : op = .div → y ≠ 0) :
    ∃ z, (Tree.node op l r).ExactInRange z ∧ z.natAbs ≤ magnitude (levels + 2) := by
  obtain ⟨z, hz⟩ := Op.exists_value? x hne
  have htwo : 2 ≤ magnitude (levels + 1) := Nat.le_trans (by decide) (ten_le_magnitude _)
  have hbound : z.natAbs ≤ magnitude (levels + 2) := by
    rw [magnitude_succ]
    exact Op.natAbs_value?_le hz hx hy htwo
  exact ⟨z, Tree.exactInRange_node.2 ⟨x, y, hl, hr, hz, inRange_of_magnitude hle hbound⟩, hbound⟩

theorem Grown.exists_value {levels : Nat} {t : Tree} (h : Grown levels t) (hle : levels ≤ 5) :
    ∃ x, t.ExactInRange x ∧ x.natAbs ≤ magnitude levels := by
  induction h with
  | @literal levels v _ hv =>
    exact ⟨v.toInt, Tree.exactInRange_lit.2 rfl, hv.natAbs_le.trans (ten_le_magnitude levels)⟩
  | operator _ _ hdiv ihl ihr =>
    obtain ⟨x, hl, hx⟩ := ihl (by omega)
    obtain ⟨y, hr, hy⟩ := ihr (by omega)
    exact exactInRange_operator hle hl hx hr hy fun hop => (hdiv hop).ne_zero hr
  | @quotient levels l v _ hv ihl =>
    obtain ⟨x, hl, hx⟩ := ihl (by omega)
    have hlit : (Tree.lit v).ExactInRange v.toInt := Tree.exactInRange_lit.2 rfl
    have hy := hv.natAbs_le.trans (ten_le_magnitude (levels + 1))
    exact exactInRange_operator hle hl hx hlit hy fun _ => hv.canDivide.ne_zero hlit

/-! ## Grades of shallow samples -/

/-- An expression with a value has the code and the value of its own call. -/
theorem Grade.ofCall_self {e : Expr} {v : Int64} (h : e.eval = .ok v) :
    ofCall e e.call = ⟨true, .same v⟩ := by
  have hread : Expr.ofCall e.call = .ok e := Expr.readBack_eq (w := .call) (by decide) e
  refine Grade.ext (sameCode_iff.2 hread) ?_
  rw [ofCall, hread]
  simp only [h, Verdict.ofResults, if_true]

/-- **Shallow samples have a value.** What is sampled with at most five levels neither overflows nor
divides by zero. The magnitude of its value is bounded by the depth, and its own call is graded as equal
in code and value. -/
theorem Sampler.sample_value {σ : Type} [Source σ] (g : Sampler σ) {depth : Nat} (hdepth : depth ≤ 5) :
    (∀ result g', g.sample depth = some (result, g') →
      ∃ e v, result = .ok e ∧ e.eval = .ok v ∧ v.toInt.natAbs ≤ 10 ^ 2 ^ (max 1 depth - 1) ∧
        Grade.ofCall e e.call = ⟨true, .same v⟩) ∧
    (g.sample depth = none → RunsOut g.patience g.source) := by
  refine ⟨fun result g' h => ?_, sample_eq_none⟩
  obtain ⟨-, -, e, rfl, hgrown⟩ := sample_eq_some h
  rw [show min depth maxDepth = depth by unfold maxDepth; omega] at hgrown
  obtain ⟨x, hexact, hx⟩ := hgrown.exists_value hdepth
  have hv : (Int64.ofInt x).toInt = x := toInt_ofInt hexact.inRange
  have heval : e.eval = .ok (Int64.ofInt x) := Tree.eval_standard_eq_ok.2 (by rwa [hv])
  refine ⟨e, Int64.ofInt x, rfl, heval, ?_, Grade.ofCall_self heval⟩
  rw [hv]
  rwa [magnitude, show depth - 1 = max 1 depth - 1 by omega] at hx

/-- A script that draws `10 * 10`. -/
theorem Sampler.sample_value_product :
    let words : List UInt64 := [0x8000000000000000, 0xE666666666666667, 0xE666666666666667]
    let g : Sampler Script := { source := { words }, patience := 4 }
    ∃ e v g', g.sample 2 = some (.ok e, g') ∧ e.eval = .ok v ∧ v.toInt.natAbs ≤ 100 ∧
      Grade.ofCall e e.call = ⟨true, .same v⟩ := by
  intro words g
  obtain ⟨hvalue, hnone⟩ := Sampler.sample_value g (by decide : 2 ≤ 5)
  cases h : g.sample 2 with
  | none => exact absurd (hnone h) (Script.not_runsOut (by decide))
  | some sampled =>
    obtain ⟨result, g'⟩ := sampled
    obtain ⟨e, v, rfl, heval, hle, hgrade⟩ := hvalue result g' h
    exact ⟨e, v, g', rfl, heval, hle, hgrade⟩

end ArithTree
