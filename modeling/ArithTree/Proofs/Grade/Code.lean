import ArithTree.Grade
import ArithTree.Proofs.Written.ReadBack

/-!
# Equal code

The code of a constructor call is compared with that of an expression through texts. Two expressions
with one faithful formula are the same expression, since the formula is read back as both
(`Expr.write_inj`); the comparison of the phrases adds nothing. So `Grade.ofCall` finds equal code
exactly where the call denotes the reference, and the values are then equal too.
-/

namespace ArithTree

/-- Equal results are never found different. -/
theorem Verdict.ofResults_self (result : Except Error Int64) (expected actual : Int64) :
    Verdict.ofResults result result ≠ .different expected actual := by
  cases result with
  | ok v => simp [ofResults]
  | error e => cases e <;> simp [ofResults, ofError]

namespace Grade

variable {r : Expr} {c : String}

theorem sameCode_iff : (ofCall r c).sameCode ↔ Expr.ofCall c = .ok r := by
  rw [ofCall]
  cases hread : Expr.ofCall c with
  | error e => simp
  | ok e =>
    simp only [Bool.and_eq_true, beq_iff_eq, Except.ok.injEq]
    constructor
    · rintro ⟨hformula, -⟩
      have hfaithful : Writing.formula .faithful ≠ .formula .sparing := by decide
      exact ((Expr.write_inj hfaithful).1 hformula).symm
    · rintro rfl
      exact ⟨rfl, rfl⟩

/-- **The texts decide the code.** A constructor call has the code of an expression if and only if it
denotes that expression. Then the values are not different, and the call has the code of no other
expression. -/
theorem sameCode_ofCall (r : Expr) (c : String) :
    ((ofCall r c).sameCode ↔ ∃ e, Expr.ofCall c = .ok e ∧ e == r) ∧
    ((ofCall r c).sameCode → ∀ expected actual, (ofCall r c).verdict ≠ .different expected actual) ∧
    ∀ r', (ofCall r c).sameCode → (ofCall r' c).sameCode → r' = r := by
  refine ⟨?_, fun h expected actual => ?_, fun r' h h' => ?_⟩
  · rw [sameCode_iff]
    constructor
    · intro h
      exact ⟨r, h, beq_self_eq_true r⟩
    · rintro ⟨e, he, heq⟩
      rwa [← eq_of_beq heq]
  · rw [ofCall, sameCode_iff.1 h]
    exact Verdict.ofResults_self r.eval expected actual
  · have hread := sameCode_iff.1 h
    rw [sameCode_iff.1 h', Except.ok.injEq] at hread
    exact hread

/-- A literal has its own code. -/
theorem sameCode_ofCall_number :
    (ofCall (.number 1) "Number(1)").sameCode ∧
      (ofCall (.number 1) "Number(1)").verdict ≠ .different 1 2 ∧
      ¬ (ofCall (.number 2) "Number(1)").sameCode := by
  have hsame : (ofCall (.number 1) "Number(1)").sameCode := rfl
  obtain ⟨-, hverdict, hunique⟩ := sameCode_ofCall (.number 1) "Number(1)"
  refine ⟨hsame, hverdict hsame 1 2, fun hother => ?_⟩
  exact absurd (hunique (.number 2) hsame hother) (by decide)

end Grade

end ArithTree
