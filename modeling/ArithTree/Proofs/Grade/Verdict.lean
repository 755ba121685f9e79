import ArithTree.Proofs.Grade.Agreement

/-!
# Verdicts on texts

The value of a source is that of its tokens (`valueOf_congr`), and so is the verdict on two sources.
Texts of equal code differ in white space at their ends alone, where the scan finds no token, so both
sides of such a grade have one result, and it alone says what the verdict is
(`verdict_ofSexprs_of_sameCode`).
-/

namespace ArithTree

theorem Verdict.ofError_of_ne {e : Error} (h : e ≠ .divisionByZero) : ofError e = .invalid e := by
  cases e with
  | divisionByZero => exact absurd rfl h
  | _ => rfl

namespace Grade

variable {r c r' c' : String}

theorem valueOf_congr (h : Token.ofSource r = Token.ofSource r') : valueOf r = valueOf r' := by
  rw [valueOf, valueOf, Expr.ofSexpr, Expr.ofSexpr, h]

theorem verdict_congr (hr : Token.ofSource r = Token.ofSource r')
    (hc : Token.ofSource c = Token.ofSource c') :
    (ofSexprs r c).verdict = (ofSexprs r' c').verdict := by
  rw [ofSexprs, ofSexprs, valueOf_congr hr, valueOf_congr hc]

theorem ofSource_eq_of_sameCode (h : (ofSexprs r c).sameCode) :
    Token.ofSource c = Token.ofSource r :=
  (Token.ofSource_eq_of_trim_eq (eq_of_beq h)).symm

/-- A text of equal code is graded as the reference itself would be. -/
theorem verdict_eq_of_sameCode (h : (ofSexprs r c).sameCode) :
    (ofSexprs r c).verdict = .ofResults (valueOf r) (valueOf r) :=
  verdict_congr rfl (ofSource_eq_of_sameCode h)

/-- **Equal text has equal value.** If two sources are the same text but for white space at the ends,
the verdict is that the values are the same if the reference has one, that the grade is left out of
account if the reference divides by zero, and otherwise that the error of the reference is in the way;
it never is that the values are different. Quite generally the verdict depends on a source through its
tokens alone. -/
theorem verdict_ofSexprs_of_sameCode (r c : String) :
    ((ofSexprs r c).sameCode →
      (∀ v, valueOf r = .ok v → (ofSexprs r c).verdict = .same v) ∧
      (valueOf r = .error .divisionByZero → (ofSexprs r c).verdict = .skipped) ∧
      (∀ e, valueOf r = .error e → e ≠ .divisionByZero → (ofSexprs r c).verdict = .invalid e) ∧
      ∀ expected actual, (ofSexprs r c).verdict ≠ .different expected actual) ∧
    ∀ r' c', Token.ofSource r = Token.ofSource r' → Token.ofSource c = Token.ofSource c' →
      (ofSexprs r c).verdict = (ofSexprs r' c').verdict := by
  refine ⟨fun h => ?_, fun r' c' => verdict_congr⟩
  rw [verdict_eq_of_sameCode h]
  refine ⟨fun v hv => ?_, fun hzero => ?_, fun e he hne => ?_, Verdict.ofResults_self (valueOf r)⟩
  · rw [hv, Verdict.ofResults, if_pos rfl]
  · rw [hzero]
    rfl
  · rw [he, Verdict.ofResults, Verdict.ofError_of_ne hne]

/-- A quotient by zero between an em space and a line break, and the same tokens in a shorter text. -/
theorem verdict_ofSexprs_of_sameCode_zero :
    (ofSexprs "(div (number 1) (number 0))" "\u2003(div (number 1) (number 0))\n").sameCode ∧
    (ofSexprs "(div (number 1) (number 0))" "\u2003(div (number 1) (number 0))\n").verdict = .skipped ∧
    (ofSexprs "(div(number 1)(number 0))" "(div(number 1)(number 0))").verdict = .skipped := by
  have hcode :
      (ofSexprs "(div (number 1) (number 0))" "\u2003(div (number 1) (number 0))\n").sameCode := rfl
  have hzero : valueOf "(div (number 1) (number 0))" = .error .divisionByZero := rfl
  have hreference : Token.ofSource "(div (number 1) (number 0))" =
      Token.ofSource "(div(number 1)(number 0))" := by decide
  have hcandidate := (ofSource_eq_of_sameCode hcode).trans hreference
  obtain ⟨hequal, htokens⟩ := verdict_ofSexprs_of_sameCode "(div (number 1) (number 0))"
    "\u2003(div (number 1) (number 0))\n"
  have hskipped := (hequal hcode).2.1 hzero
  exact ⟨hcode, hskipped, (htokens _ _ hreference hcandidate).symm.trans hskipped⟩

end Grade

end ArithTree
