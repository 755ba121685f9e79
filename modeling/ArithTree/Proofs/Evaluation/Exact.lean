import ArithTree.Proofs.Evaluation.Node

/-!
# Evaluation is exact

`Tree.value?` evaluates over the unbounded integers and fails for a zero divisor alone.
`Tree.ExactInRange t x` says that this gives `x` and that no node of the tree leaves the range of
64-bit integers. The standard evaluation has the value `x` exactly in that case
(`eval_standard_eq_ok`), and an error of it names a node that is at fault (`eval_standard_error`).
-/

namespace ArithTree

/-- The operator on unbounded integers, with no value for a zero divisor. -/
def Op.value? : Op → Int → Int → Option Int
  | .add, x, y => some (x + y)
  | .sub, x, y => some (x - y)
  | .mul, x, y => some (x * y)
  | .div, x, y => if y = 0 then none else some (x.tdiv y)

namespace Tree

/-- The value of a tree over the unbounded integers. -/
def value? : Tree → Option Int
  | .lit v => some v.toInt
  | .node op l r => do
    let x ← l.value?
    let y ← r.value?
    op.value? x y

/-- The tree has the value `x`, and every subtree has a value in range. -/
def ExactInRange (t : Tree) (x : Int) : Prop :=
  t.value? = some x ∧ ∀ s ∈ t.subtrees, ∃ y, s.value? = some y ∧ InRange y

end Tree

/-! ## The standard operations -/

/-- The operation that the standard table binds to an operator. -/
def Op.operation : Op → Operation
  | .add => .add
  | .sub => .sub
  | .mul => .mul
  | .div => .div

@[simp] theorem OpTable.find_standard (op : Op) : standard.find op = some op.operation := by
  cases op <;> rfl

section
variable {op : Op} {a b v : Int64} {err : Error}

theorem toInt_eq_zero_iff : a.toInt = 0 ↔ a = 0 := by
  rw [← Int64.toInt_inj, Int64.toInt_zero]

theorem Op.operation_eq_ok :
    op.operation a b = .ok v ↔ op.value? a.toInt b.toInt = some v.toInt := by
  cases op with
  | div =>
    by_cases hb : b = 0
    · simp [operation, value?, Operation.div, Operation.nonzero, hb]
    · rw [operation, value?, Operation.div, Operation.nonzero, if_neg hb,
        if_neg (mt toInt_eq_zero_iff.1 hb), Operation.exact_eq_ok, Option.some_inj, eq_comm]
  | _ => exact Operation.exact_eq_ok.trans (by rw [value?, Option.some_inj, eq_comm])

theorem Op.operation_error (h : op.operation a b = .error err) :
    err = .divisionByZero ∧ op = .div ∧ b = 0 ∨
      err = .overflow ∧ ∃ z, op.value? a.toInt b.toInt = some z ∧ ¬ InRange z := by
  cases op with
  | div =>
    rw [operation, Operation.div, Operation.nonzero] at h
    split at h
    · rename_i hb
      exact .inl ⟨(Except.error.inj h).symm, rfl, hb⟩
    · rename_i hb
      obtain ⟨hrange, rfl⟩ := Operation.exact_eq_error.1 h
      exact .inr ⟨rfl, _, if_neg (mt toInt_eq_zero_iff.1 hb), hrange⟩
  | _ =>
    obtain ⟨hrange, rfl⟩ := Operation.exact_eq_error.1 h
    exact .inr ⟨rfl, _, rfl, hrange⟩

end

namespace Tree

variable {t l r : Tree} {op : Op} {x z : Int} {v : Int64} {err : Error}

/-! ## Exact values in range -/

theorem ExactInRange.inRange (h : t.ExactInRange x) : InRange x := by
  obtain ⟨y, hy, hrange⟩ := h.2 t (mem_subtrees_self t)
  rw [h.1, Option.some_inj] at hy
  rwa [hy]

theorem exactInRange_lit : (lit v).ExactInRange x ↔ x = v.toInt := by
  constructor
  · intro h
    exact (Option.some.inj h.1).symm
  · rintro rfl
    refine ⟨rfl, fun s hs => ?_⟩
    rw [List.mem_singleton.1 hs]
    exact ⟨v.toInt, rfl, inRange_toInt v⟩

theorem exactInRange_node : (node op l r).ExactInRange z ↔
    ∃ x y, l.ExactInRange x ∧ r.ExactInRange y ∧ op.value? x y = some z ∧ InRange z := by
  constructor
  · intro h
    have hz := h.1
    rw [value?, Option.bind_eq_bind, Option.bind_eq_some_iff] at hz
    obtain ⟨x, hx, hz⟩ := hz
    obtain ⟨y, hy, hz⟩ := Option.bind_eq_some_iff.1 hz
    exact ⟨x, y, ⟨hx, fun s hs => h.2 s (mem_subtrees_node.2 (.inr (.inl hs)))⟩,
      ⟨hy, fun s hs => h.2 s (mem_subtrees_node.2 (.inr (.inr hs)))⟩, hz, h.inRange⟩
  · rintro ⟨x, y, hl, hr, hz, hrange⟩
    have hnode : (node op l r).value? = some z := by
      rw [value?, hl.1, hr.1]
      exact hz
    refine ⟨hnode, fun s hs => ?_⟩
    rcases mem_subtrees_node.1 hs with rfl | hs | hs
    · exact ⟨z, hnode, hrange⟩
    · exact hl.2 s hs
    · exact hr.2 s hs

/-! ## The standard evaluation -/

theorem eval_standard_eq_ok : t.eval .standard = .ok v ↔ t.ExactInRange v.toInt := by
  induction t generalizing v with
  | lit w => rw [eval, exactInRange_lit, Except.ok.injEq, Int64.toInt_inj, eq_comm]
  | node op l r ihl ihr =>
    rw [eval_node_eq_ok (OpTable.find_standard op), exactInRange_node]
    constructor
    · rintro ⟨a, b, hl, hr, hv⟩
      exact ⟨a.toInt, b.toInt, ihl.1 hl, ihr.1 hr, Op.operation_eq_ok.1 hv, inRange_toInt v⟩
    · rintro ⟨x, y, hl, hr, hv, -⟩
      have hx : (Int64.ofInt x).toInt = x := toInt_ofInt hl.inRange
      have hy : (Int64.ofInt y).toInt = y := toInt_ofInt hr.inRange
      refine ⟨.ofInt x, .ofInt y, ihl.2 (by rwa [hx]), ihr.2 (by rwa [hy]), ?_⟩
      rw [Op.operation_eq_ok, hx, hy, hv]

/-- A quotient in the tree has a divisor with the exact value zero. -/
def DividesByZero (t : Tree) : Prop :=
  ∃ l r, .node .div l r ∈ t.subtrees ∧ r.ExactInRange 0

/-- An operator in the tree has operands with exact values in range, and leaves the range. -/
def Overflows (t : Tree) : Prop :=
  ∃ op l r x y z, .node op l r ∈ t.subtrees ∧ l.ExactInRange x ∧ r.ExactInRange y ∧
    op.value? x y = some z ∧ ¬ InRange z

theorem DividesByZero.mono (h : l.DividesByZero) (hsub : ∀ s ∈ l.subtrees, s ∈ t.subtrees) :
    t.DividesByZero := by
  obtain ⟨dividend, divisor, hmem, hzero⟩ := h
  exact ⟨dividend, divisor, hsub _ hmem, hzero⟩

theorem Overflows.mono (h : l.Overflows) (hsub : ∀ s ∈ l.subtrees, s ∈ t.subtrees) :
    t.Overflows := by
  obtain ⟨op, l', r', x, y, z, hmem, hfault⟩ := h
  exact ⟨op, l', r', x, y, z, hsub _ hmem, hfault⟩

theorem eval_standard_error (h : t.eval .standard = .error err) :
    err = .divisionByZero ∧ t.DividesByZero ∨ err = .overflow ∧ t.Overflows := by
  induction t with
  | lit v => cases h
  | node op l r ihl ihr =>
    rcases eval_node_error (OpTable.find_standard op) h with hl | hr | ⟨a, b, hl, hr, hop⟩
    · have hsub : ∀ s ∈ l.subtrees, s ∈ (node op l r).subtrees :=
        fun s hs => mem_subtrees_node.2 (.inr (.inl hs))
      exact (ihl hl).imp (And.imp_right (·.mono hsub)) (And.imp_right (·.mono hsub))
    · have hsub : ∀ s ∈ r.subtrees, s ∈ (node op l r).subtrees :=
        fun s hs => mem_subtrees_node.2 (.inr (.inr hs))
      exact (ihr hr).imp (And.imp_right (·.mono hsub)) (And.imp_right (·.mono hsub))
    · have hx := eval_standard_eq_ok.1 hl
      have hy := eval_standard_eq_ok.1 hr
      rcases Op.operation_error hop with ⟨rfl, rfl, rfl⟩ | ⟨rfl, z, hz, hrange⟩
      · exact .inl ⟨rfl, l, r, mem_subtrees_self _, hy⟩
      · exact .inr ⟨rfl, op, l, r, _, _, z, mem_subtrees_self _, hx, hy, hz, hrange⟩

end Tree

/-- **Evaluation is exact or says why not.** An expression has a value if and only if it can be
evaluated over the unbounded integers with every node in range, and the value is the exact one.
Otherwise the error is a zero divisor or an overflow that the expression really contains. -/
theorem Expr.eval_exact (e : Expr) :
    (∀ x, (∃ v, e.eval = .ok v ∧ v.toInt = x) ↔ e.tree.ExactInRange x) ∧
    ∀ err, e.eval = .error err →
      err = .divisionByZero ∧ e.tree.DividesByZero ∨ err = .overflow ∧ e.tree.Overflows := by
  refine ⟨fun x => ⟨?_, fun h => ?_⟩, fun err => Tree.eval_standard_error⟩
  · rintro ⟨v, hv, rfl⟩
    exact Tree.eval_standard_eq_ok.1 hv
  · have hx : (Int64.ofInt x).toInt = x := toInt_ofInt h.inRange
    refine ⟨.ofInt x, Tree.eval_standard_eq_ok.2 ?_, hx⟩
    rwa [hx]

end ArithTree
