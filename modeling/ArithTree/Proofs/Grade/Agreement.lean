import ArithTree.Proofs.Grade.Code

/-!
# The two ways to grade agree

A call can be graded as it is, or as the S-expression that is written for what it denotes. The one
way compares formulas and phrases and evaluates the trees; the other compares texts without their
white ends and evaluates what is read off them again. Both find equal code exactly for equal
expressions, since a text is read as what it was written for, and both see the same results.
-/

namespace ArithTree

theorem Expr.ofSexpr_sexpr_eq (e : Expr) : ofSexpr e.sexpr = .ok e :=
  readBack_eq (w := .sexpr) (by decide) e

/-- A source is read by its tokens, so white space at the ends has no part in it. -/
theorem Expr.ofSexpr_congr {source other : String}
    (h : Text.trim source.toList = Text.trim other.toList) : ofSexpr source = ofSexpr other := by
  rw [ofSexpr, ofSexpr, Token.ofSource_eq_of_trim_eq h]

namespace Grade

variable {r e : Expr} {c : String}

theorem sameCode_ofSexprs_sexpr : (ofSexprs r.sexpr e.sexpr).sameCode ↔ e = r := by
  rw [ofSexprs, beq_iff_eq]
  constructor
  · intro h
    have hread : Expr.ofSexpr r.sexpr = Expr.ofSexpr e.sexpr := Expr.ofSexpr_congr h
    rw [Expr.ofSexpr_sexpr_eq, Expr.ofSexpr_sexpr_eq, Except.ok.injEq] at hread
    exact hread.symm
  · intro h
    rw [h]

theorem valueOf_sexpr (e : Expr) : valueOf e.sexpr = e.eval := by
  rw [valueOf, Expr.ofSexpr_sexpr_eq]
  rfl

/-- **The two ways to grade agree.** The grade of a call that denotes an expression is that of the
expression's S-expression against the S-expression of the reference, in the code and in the
verdict, whatever the values and errors. -/
theorem ofCall_eq_ofSexprs (r : Expr) (hread : Expr.ofCall c = .ok e) :
    ofCall r c = ofSexprs r.sexpr e.sexpr := by
  have hcode : (ofCall r c).sameCode = (ofSexprs r.sexpr e.sexpr).sameCode := by
    rw [Bool.eq_iff_iff, sameCode_iff, sameCode_ofSexprs_sexpr, hread, Except.ok.injEq]
  have hverdict : (ofCall r c).verdict = (ofSexprs r.sexpr e.sexpr).verdict := by
    show _ = Verdict.ofResults (valueOf r.sexpr) (valueOf e.sexpr)
    rw [valueOf_sexpr, valueOf_sexpr, ofCall, hread]
  exact Grade.ext hcode hverdict

/-- A quotient by zero is left out of account in both ways. -/
theorem ofCall_eq_ofSexprs_zero :
    let zero : Expr := ⟨.node .div (.lit 1) (.lit 0), by decide⟩
    Expr.ofCall "Div(Number(1), Number(0))" = .ok zero ∧
    ofCall (.number 1) "Div(Number(1), Number(0))" =
      ofSexprs "(number 1)" "(div (number 1) (number 0))" ∧
    (ofCall (.number 1) "Div(Number(1), Number(0))").verdict = .skipped := by
  intro zero
  have hdenotes : Call.Denotes "Div(Number(1), Number(0))".toList zero.tree :=
    ⟨_, [], rfl, Call.derives_call _, .nil⟩
  have hread : Expr.ofCall "Div(Number(1), Number(0))" = .ok zero :=
    Call.ofCall_of_denotes hdenotes
  have hone : "(number 1)" = (Expr.number 1).sexpr := rfl
  have hzero : "(div (number 1) (number 0))" = zero.sexpr := rfl
  refine ⟨hread, ?_, ?_⟩
  · rw [hone, hzero]
    exact ofCall_eq_ofSexprs (.number 1) hread
  · rw [ofCall, hread]
    rfl

end Grade

end ArithTree
