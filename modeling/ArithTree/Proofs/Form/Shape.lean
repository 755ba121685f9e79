import ArithTree.Form.Denotation

/-!
# Shapes of forms

A form is well shaped if it is a literal `(number i)` or an operator over two operands; every other
form has a fault, which says why it is refused (`fault?_eq_none_iff`). `toExprWithin` looks at the
shape first and at the operands after it, so one equation for each shape describes it.
-/

namespace ArithTree

namespace Form

/-- The form of a literal. -/
def literal (v : Int64) : Form := .list [.atom (.symbol numberWord), .atom (.int v)]

/-- The form of an operator over two operands. -/
def operator (op : Op) (l r : Form) : Form := .list [.atom (.symbol op.keyword), l, r]

end Form

/-- The form that denotes a tree. -/
def Tree.form : Tree → Form
  | .lit v => Form.literal v
  | .node op l r => Form.operator op l.form r.form

namespace Form

/-- The cause for which a form is refused whatever its operands are. -/
def fault? : Form → Option Error
  | .atom a => some (.notForm (String.ofList a.text))
  | .list [] => some .emptyForm
  | .list (head :: args) =>
    let unknown := Error.unknownOperator head.display args.length
    match head with
    | .atom (.symbol word) =>
      if word = numberWord then
        match args with
        | [.atom (.int _)] => none
        | [other] => some (.notInteger other.display)
        | _ => some unknown
      else
        match Op.ofKeyword? word, args with
        | some _, [_, _] => none
        | _, _ => some unknown
    | _ => some unknown

theorem keyword_ne_numberWord (op : Op) : op.keyword ≠ numberWord := by
  cases op <;> decide

theorem operator_inj {op op' : Op} {l r l' r' : Form} :
    operator op l r = operator op' l' r' ↔ op = op' ∧ l = l' ∧ r = r' := by
  simp [operator, Op.keyword_inj]

theorem literal_ne_operator {v : Int64} {op : Op} {l r : Form} : literal v ≠ operator op l r := by
  simp [literal, operator]

@[simp] theorem fault?_literal (v : Int64) : (literal v).fault? = none := by
  simp [literal, fault?]

@[simp] theorem fault?_operator (op : Op) (l r : Form) : (operator op l r).fault? = none := by
  simp [operator, fault?, keyword_ne_numberWord]

theorem fault?_eq_none_iff {f : Form} :
    f.fault? = none ↔ (∃ v, f = literal v) ∨ ∃ op l r, f = operator op l r := by
  constructor
  · intro h
    unfold fault? at h
    split at h
    · cases h
    · cases h
    · rename_i head args
      split at h
      · rename_i word
        split at h
        · rename_i hword
          split at h
          · exact .inl ⟨_, by rw [hword, literal]⟩
          · cases h
          · cases h
        · split at h
          · rename_i op l r hop
            exact .inr ⟨op, l, r, by rw [Op.ofKeyword?_eq_some_iff.1 hop, operator]⟩
          · cases h
      · cases h
  · rintro (⟨v, rfl⟩ | ⟨op, l, r, rfl⟩)
    · exact fault?_literal v
    · exact fault?_operator op l r

/-! ## The denotation by shapes -/

section
variable (n : Nat)

theorem toExprWithin_literal (v : Int64) : toExprWithin (n + 1) (literal v) = .ok (.number v) := by
  simp [literal, toExprWithin, toNumber]

theorem toExprWithin_operator (op : Op) (l r : Form) :
    toExprWithin (n + 1) (operator op l r) = (do
      let left ← toExprWithin n l
      let right ← toExprWithin n r
      Expr.combine op left right) := by
  simp [operator, toExprWithin, keyword_ne_numberWord]

theorem toExprWithin_fault {f : Form} {err : Error} (h : f.fault? = some err) :
    toExprWithin (n + 1) f = .error err := by
  unfold fault? at h
  split at h
  · rw [toExprWithin, Option.some.inj h]
  · rw [toExprWithin, Option.some.inj h]
  · split at h
    · rename_i args _ word
      rw [toExprWithin.eq_def]
      by_cases hword : word = numberWord
      · simp only [if_pos hword, toNumber, unknown] at h ⊢
        split at h <;> simp_all
      · simp only [if_neg hword, unknown] at h ⊢
        split at h <;> simp_all
    · rename_i hhead
      rw [toExprWithin.eq_def]
      simp_all [unknown]

end

end Form

end ArithTree
