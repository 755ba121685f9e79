/-!
# The range of 64-bit integers

`narrow?` takes an unbounded integer to the signed 64-bit integer of the same value, if there is
one. `narrow?_eq_some_iff` is all that its users need: arithmetic is done on unbounded integers
and narrowed at the end, so no operation wraps.
-/

namespace ArithTree

/-- The integers that fit in 64 bits with a sign. -/
def InRange (x : Int) : Prop := -9223372036854775808 ≤ x ∧ x ≤ 9223372036854775807

instance : DecidablePred InRange := fun x =>
  inferInstanceAs (Decidable (-9223372036854775808 ≤ x ∧ x ≤ 9223372036854775807))

theorem inRange_toInt (v : Int64) : InRange v.toInt :=
  ⟨v.le_toInt, Int.le_of_lt_add_one v.toInt_lt⟩

/-- The 64-bit integer with the value `x`. -/
def narrow? (x : Int) : Option Int64 :=
  if InRange x then some (Int64.ofInt x) else none

theorem toInt_ofInt {x : Int} (h : InRange x) : (Int64.ofInt x).toInt = x :=
  Int64.toInt_ofInt_of_le h.1 (Int.lt_add_one_of_le h.2)

theorem narrow?_eq_some_iff {x : Int} {v : Int64} : narrow? x = some v ↔ v.toInt = x := by
  unfold narrow?
  split
  · rename_i h
    rw [Option.some_inj, ← Int64.toInt_inj, toInt_ofInt h, eq_comm]
  · rename_i h
    simp only [reduceCtorEq, false_iff]
    rintro rfl
    exact h (inRange_toInt v)

theorem narrow?_eq_none_iff {x : Int} : narrow? x = none ↔ ¬ InRange x := by
  simp [narrow?]

@[simp] theorem narrow?_toInt (v : Int64) : narrow? v.toInt = some v :=
  narrow?_eq_some_iff.2 rfl

end ArithTree
