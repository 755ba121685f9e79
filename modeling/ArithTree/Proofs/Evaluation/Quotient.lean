import ArithTree.Proofs.Evaluation.Exact

/-!
# Quotients by zero

The divisor of a quotient is evaluated before the dividend, but whether it is zero is a question for
the operation, which is applied once both have values. An error of the dividend therefore escapes
before a zero divisor is noticed (`eval_quotient_zero`). Such an error is a division by zero or an
overflow, and only the overflow changes the outcome: a quotient by zero is a division by zero exactly
if its dividend does not overflow (`Expr.eval_quotient_zero_iff`).
-/

namespace ArithTree

namespace Tree

variable {l r : Tree} {b : Int64} {err : Error}

/-- Once the divisor has a value, the dividend decides whether the operation is reached. -/
theorem eval_quotient (hr : r.eval .standard = .ok b) : (node .div l r).eval .standard =
    (l.eval .standard).bind fun a => Operation.div a b := by
  rw [eval_node (OpTable.find_standard .div), if_pos rfl, hr]
  rfl

/-- A zero divisor is noticed after the dividend. -/
theorem eval_quotient_zero (hr : r.eval .standard = .ok 0) : (node .div l r).eval .standard =
    (l.eval .standard).bind fun _ => .error .divisionByZero := by
  rw [eval_quotient hr]
  rfl

end Tree

/-- **A zero divisor surfaces unless the dividend overflows.** A quotient whose divisor has the value
zero is a division by zero if and only if its dividend is no overflow: it is one if the dividend has
a value and if the dividend divides by zero itself, while an overflow of the dividend is the outcome
in its place. -/
theorem Expr.eval_quotient_zero_iff {e : Expr} {l r : Tree} (he : e.tree = .node .div l r)
    (hr : r.eval .standard = .ok 0) :
    (e.eval = .error .divisionByZero ↔ l.eval .standard ≠ .error .overflow) ∧
    (l.eval .standard = .error .overflow → e.eval = .error .overflow) := by
  have heval : e.eval = (l.eval .standard).bind fun _ => .error .divisionByZero := by
    rw [Expr.eval, Expr.evalIn, he, Tree.eval_quotient_zero hr]
  rw [heval]
  cases hl : l.eval .standard with
  | ok a => simp [Except.bind]
  | error err =>
    rcases Tree.eval_standard_error hl with ⟨rfl, -⟩ | ⟨rfl, -⟩ <;> simp [Except.bind]

/-- Both the dividend and the divisor are quotients, and the dividend divides by zero itself. -/
theorem Expr.eval_quotient_zero_iff_nested :
    let e : Expr := ⟨.node .div (.node .div (.lit 1) (.lit 0)) (.node .div (.lit 1) (.lit 2)), by
      decide⟩
    (Tree.node .div (.lit 1) (.lit 2)).eval .standard = .ok 0 ∧ e.eval = .error .divisionByZero := by
  intro e
  have hdivisor : (Tree.node .div (.lit 1) (.lit 2)).eval .standard = .ok 0 := rfl
  have hdividend : (Tree.node .div (.lit 1) (.lit 0)).eval .standard = .error .divisionByZero := rfl
  refine ⟨hdivisor, (eval_quotient_zero_iff rfl hdivisor).1.2 ?_⟩
  rw [hdividend]
  simp

/-- Twice the greatest value overflows, and so does its quotient by zero. -/
theorem Expr.eval_quotient_zero_overflow :
    ∃ e : Expr, e.tree = .node .div (.node .mul (.lit Int64.maxValue) (.lit 2)) (.lit 0) ∧
      (Tree.lit 0).eval .standard = .ok 0 ∧ e.eval = .error .overflow ∧
      e.eval ≠ .error .divisionByZero := by
  let e : Expr := ⟨.node .div (.node .mul (.lit Int64.maxValue) (.lit 2)) (.lit 0), by decide⟩
  have heval : e.eval = .error .overflow := rfl
  refine ⟨e, rfl, rfl, heval, ?_⟩
  rw [heval]
  simp

end ArithTree
