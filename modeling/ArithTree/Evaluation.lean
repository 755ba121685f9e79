import ArithTree.Expr
import ArithTree.Range

/-!
# Evaluation

An operator table gives each operator a partial operation on 64-bit integers. The standard table
computes on unbounded integers and narrows the result, so it never wraps. A missing operator is
found before its operands are evaluated, and the divisor of a quotient is evaluated before the
dividend, whatever operation is bound to division.
-/

namespace ArithTree

/-- A partial binary operation on 64-bit integers. -/
abbrev Operation := Int64 → Int64 → Except Error Int64

namespace Operation

/-- An operation on unbounded integers, refused if the result does not fit. -/
def exact (f : Int → Int → Int) : Operation := fun a b =>
  match narrow? (f a.toInt b.toInt) with
  | some v => .ok v
  | none => .error .overflow

/-- An operation that is refused for a zero on the right. -/
def nonzero (f : Operation) : Operation := fun a b =>
  if b = 0 then .error .divisionByZero else f a b

def add : Operation := exact (· + ·)

def sub : Operation := exact (· - ·)

def mul : Operation := exact (· * ·)

/-- The quotient, truncated toward zero. -/
def div : Operation := nonzero (exact Int.tdiv)

/-- The quotient that leaves a remainder of at least zero. -/
def euclid : Operation := nonzero (exact (· / ·))

def left : Operation := fun a _ => .ok a

def right : Operation := fun _ b => .ok b

/-! ## Results in unbounded arithmetic -/

theorem exact_eq_ok {f : Int → Int → Int} {a b v : Int64} :
    exact f a b = .ok v ↔ v.toInt = f a.toInt b.toInt := by
  unfold exact
  split
  · rename_i w h
    rw [Except.ok.injEq, ← narrow?_eq_some_iff, h, Option.some_inj]
  · rename_i h
    rw [← narrow?_eq_some_iff, h]
    simp

theorem exact_eq_error {f : Int → Int → Int} {a b : Int64} {e : Error} :
    exact f a b = .error e ↔ ¬ InRange (f a.toInt b.toInt) ∧ e = .overflow := by
  unfold exact
  split
  · rename_i w h
    rw [narrow?_eq_some_iff] at h
    simp [← h, inRange_toInt]
  · rename_i h
    simp [narrow?_eq_none_iff.1 h, eq_comm]

end Operation

structure OpTable where
  find : Op → Option Operation

namespace OpTable

def empty : OpTable := ⟨fun _ => none⟩

/-- The table with `op` bound to `f`, in place of what was bound to it. -/
def bind (table : OpTable) (op : Op) (f : Operation) : OpTable :=
  ⟨fun other => if other = op then some f else table.find other⟩

/-- The table of a list of bindings, the later ones in place of the earlier. -/
def ofList (bindings : List (Op × Operation)) : OpTable :=
  bindings.foldl (fun table binding => table.bind binding.1 binding.2) empty

/-- Arithmetic on 64-bit integers. -/
def standard : OpTable :=
  ofList [(.add, .add), (.sub, .sub), (.mul, .mul), (.div, .div)]

@[simp] theorem find_bind_self (table : OpTable) (op : Op) (f : Operation) :
    (table.bind op f).find op = some f := by
  simp [bind]

theorem find_bind_of_ne (table : OpTable) {op other : Op} (f : Operation) (h : other ≠ op) :
    (table.bind op f).find other = table.find other := by
  simp [bind, h]

end OpTable

namespace Tree

/-- The value of a tree under a table of operations. -/
def eval (table : OpTable) : Tree → Except Error Int64
  | .lit v => .ok v
  | .node op l r =>
    match table.find op with
    | none => .error (.unknownOperator op.keyword 2)
    | some f =>
      match op with
      | .div => do
        let divisor ← r.eval table
        let dividend ← l.eval table
        f dividend divisor
      | _ => do
        let left ← l.eval table
        let right ← r.eval table
        f left right

end Tree

namespace Expr

def evalIn (table : OpTable) (e : Expr) : Except Error Int64 := e.tree.eval table

def eval (e : Expr) : Except Error Int64 := e.evalIn .standard

/-- Whether two expressions have the same value, or have none for the same cause. -/
def agrees (a b : Expr) : Bool :=
  match a.eval, b.eval with
  | .ok v, .ok w => v == w
  | .error e, .error f => e == f
  | _, _ => false

end Expr

end ArithTree
