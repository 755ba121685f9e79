import ArithTree.Proofs.Grade.Verdict
import ArithTree.Totals

/-!
# Totals over runs

Totals are counts of the grades that were added (`Totals.ofGrades_eq`), so the order does not show.
A grade that one of the two ways to grade gives is consistent: equal code has no different values
(`Grade.Given.consistent`). Adding a consistent grade keeps totals coherent (`Totals.Coherent.add`),
and so does a run of them; in coherent totals the grades of equal code with a value on both sides are
among those of equal value.
-/

namespace ArithTree

namespace Verdict

theorem isSame_le_isEvaluable (v : Verdict) : v.isSame.toNat ≤ v.isEvaluable.toNat := by
  cases v <;> simp [isSame, isEvaluable]

/-- Two values that are not different are the same. -/
theorem isSame_of_isEvaluable {v : Verdict} (hv : v.isEvaluable)
    (hne : ∀ expected actual, v ≠ .different expected actual) : v.isSame := by
  cases v with
  | same w => rfl
  | different expected actual => exact absurd rfl (hne expected actual)
  | skipped => cases hv
  | invalid e => cases hv

end Verdict

namespace Grade

/-- The grades that the two ways to grade give. -/
inductive Given : Grade → Prop
  | sexprs (reference candidate : String) : Given (ofSexprs reference candidate)
  | call (reference : Expr) (candidate : String) : Given (ofCall reference candidate)

/-- Equal code has no different values. -/
def Consistent (g : Grade) : Prop :=
  g.sameCode → ∀ expected actual, g.verdict ≠ .different expected actual

variable {g : Grade}

theorem Given.consistent (h : g.Given) : g.Consistent := by
  cases h with
  | sexprs r c =>
    intro hcode
    rw [verdict_eq_of_sameCode hcode]
    exact Verdict.ofResults_self (valueOf r)
  | call r c =>
    intro hcode
    rw [ofCall, sameCode_iff.1 hcode]
    exact Verdict.ofResults_self r.eval

/-- A consistent grade of equal code is out of account or of equal value. -/
theorem Consistent.sameCode_add_isEvaluable_le (h : g.Consistent) :
    g.sameCode.toNat + g.isEvaluable.toNat ≤ 1 + g.verdict.isSame.toNat := by
  have hcode := g.sameCode.toNat_le
  have hvalue := g.isEvaluable.toNat_le
  by_cases hboth : g.sameCode ∧ g.isEvaluable
  · have hsame : g.verdict.isSame := Verdict.isSame_of_isEvaluable hboth.2 (h hboth.1)
    rw [hsame, Bool.toNat_true]
    omega
  · have hnone : g.sameCode = false ∨ g.isEvaluable = false := by simpa [imp_iff_not_or] using hboth
    rcases hnone with hnone | hnone <;> rw [hnone, Bool.toNat_false] <;> omega

end Grade

namespace Totals

variable {t : Totals} {g : Grade} {gs : List Grade}

/-! ## Counts -/

theorem countP_cons_toNat (p : Grade → Bool) (g : Grade) (gs : List Grade) :
    (g :: gs).countP p = (p g).toNat + gs.countP p := by
  rw [List.countP_cons, Nat.add_comm]
  cases p g <;> rfl

theorem foldl_add (t : Totals) (gs : List Grade) : gs.foldl add t =
    { graded := t.graded + gs.length
      evaluable := t.evaluable + gs.countP Grade.isEvaluable
      sameValue := t.sameValue + gs.countP (·.verdict.isSame)
      sameCode := t.sameCode + gs.countP Grade.sameCode } := by
  induction gs generalizing t with
  | nil => simp
  | cons g gs ih =>
    rw [List.foldl_cons, ih, add, List.length_cons]
    simp only [countP_cons_toNat, Nat.add_assoc, Nat.add_comm 1]

theorem ofGrades_eq (gs : List Grade) : ofGrades gs =
    { graded := gs.length
      evaluable := gs.countP Grade.isEvaluable
      sameValue := gs.countP (·.verdict.isSame)
      sameCode := gs.countP Grade.sameCode } := by
  simp [ofGrades, foldl_add]

theorem ofGrades_perm {gs' : List Grade} (h : gs'.Perm gs) : ofGrades gs' = ofGrades gs := by
  simp only [ofGrades_eq, h.length_eq, h.countP_eq]

/-! ## Bounds -/

/-- What the counts have to do with each other. The last bound says that every grade of equal code
that has a value on both sides is of equal value. -/
structure Coherent (t : Totals) : Prop where
  sameValue_le : t.sameValue ≤ t.evaluable
  evaluable_le : t.evaluable ≤ t.graded
  sameCode_le : t.sameCode ≤ t.graded
  sameCode_add_evaluable_le : t.sameCode + t.evaluable ≤ t.graded + t.sameValue

theorem coherent_empty : Coherent {} := by
  constructor <;> exact Nat.le_refl _

theorem Coherent.add (h : t.Coherent) (hg : g.Consistent) : (t.add g).Coherent where
  sameValue_le := Nat.add_le_add h.sameValue_le g.verdict.isSame_le_isEvaluable
  evaluable_le := Nat.add_le_add h.evaluable_le g.isEvaluable.toNat_le
  sameCode_le := Nat.add_le_add h.sameCode_le g.sameCode.toNat_le
  sameCode_add_evaluable_le := by
    have hbefore := h.sameCode_add_evaluable_le
    have hadded := hg.sameCode_add_isEvaluable_le
    simp only [Totals.add]
    omega

theorem Coherent.foldl_add (h : t.Coherent) (hgs : ∀ g ∈ gs, g.Consistent) :
    (gs.foldl Totals.add t).Coherent := by
  induction gs generalizing t with
  | nil => exact h
  | cons g gs ih =>
    rw [List.forall_mem_cons] at hgs
    exact ih (h.add hgs.1) hgs.2

end Totals

/-- **Totals are coherent counts.** The totals of a run of grades, each given in one of the two ways,
count all grades, those with a value on both sides, those of equal value and those of equal code,
whatever the order. Each count is bounded by the ones that it is a part of, and since a grade of equal
code with a value on both sides is of equal value, the two counts that meet there bound each other. -/
theorem Totals.coherent_ofGrades {gs : List Grade} (h : ∀ g ∈ gs, g.Given) :
    ofGrades gs =
      { graded := gs.length
        evaluable := gs.countP Grade.isEvaluable
        sameValue := gs.countP (·.verdict.isSame)
        sameCode := gs.countP Grade.sameCode } ∧
    (∀ gs', gs'.Perm gs → ofGrades gs' = ofGrades gs) ∧ (ofGrades gs).Coherent := by
  refine ⟨ofGrades_eq gs, fun gs' => ofGrades_perm, ?_⟩
  exact coherent_empty.foldl_add fun g hg => (h g hg).consistent

/-- One grade of equal code, one of different values and one that is out of account. -/
theorem Totals.coherent_ofGrades_three :
    let gs := [Grade.ofSexprs "(number 1)" " (number 1)", Grade.ofCall (.number 1) "Number(2)",
      Grade.ofSexprs "(number 1)" "(div (number 1) (number 0))"]
    (∀ g ∈ gs, g.Given) ∧ (ofGrades gs).Coherent ∧
      ofGrades gs = { graded := 3, evaluable := 2, sameValue := 1, sameCode := 1 } := by
  intro gs
  have hgiven : ∀ g ∈ gs, g.Given := by
    simp only [gs, List.forall_mem_cons, List.not_mem_nil, false_implies, implies_true, and_true]
    exact ⟨.sexprs .., .call .., .sexprs ..⟩
  obtain ⟨hcounts, -, hcoherent⟩ := coherent_ofGrades hgiven
  exact ⟨hgiven, hcoherent, hcounts.trans rfl⟩

end ArithTree
