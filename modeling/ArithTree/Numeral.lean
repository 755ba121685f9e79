import ArithTree.Range

/-!
# Integer numerals

Integers in decimal. `ofInt` writes without a plus sign or leading zeros; `readInt64?` reads any
spelling: an optional sign and one or more ASCII digits, within the signed 64-bit range.
`readInt64?_ofInt64` says that what is written reads back.
-/

namespace ArithTree.Numeral

/-- The decimal digits of a natural number. -/
def ofNat (n : Nat) : List Char := Nat.toDigits 10 n

/-- An integer, with a minus sign below zero. -/
def ofInt : Int → List Char
  | .ofNat n => ofNat n
  | .negSucc n => '-' :: ofNat (n + 1)

def ofInt64 (v : Int64) : List Char := ofInt v.toInt

/-- The value of a run of digits. -/
def toNat (digits : List Char) : Nat := Nat.ofDigitChars 10 digits 0

/-- A non-empty run of ASCII digits. -/
def isRun (cs : List Char) : Bool := !cs.isEmpty && cs.all Char.isDigit

/-- Takes an optional sign off the front; the flag is set by a minus sign. -/
def splitSign : List Char → Bool × List Char
  | '-' :: cs => (true, cs)
  | '+' :: cs => (false, cs)
  | cs => (false, cs)

/-- The integer of a sign and a natural number. -/
def signed (negative : Bool) (n : Nat) : Int := if negative then -n else n

/-- A signed 64-bit integer in any spelling. -/
def readInt64? (cs : List Char) : Option Int64 :=
  let (negative, digits) := splitSign cs
  if isRun digits then narrow? (signed negative (toNat digits)) else none

/-! ## Writing and reading -/

theorem isRun_iff {cs : List Char} : isRun cs ↔ cs ≠ [] ∧ ∀ c ∈ cs, c.isDigit := by
  simp [isRun]

theorem isDigit_of_mem_ofNat {n : Nat} {c : Char} (h : c ∈ ofNat n) : c.isDigit :=
  Nat.isDigit_of_mem_toDigits (by decide) (by decide) h

theorem ofNat_ne_nil (n : Nat) : ofNat n ≠ [] := Nat.toDigits_ne_nil

@[simp] theorem toNat_ofNat (n : Nat) : toNat (ofNat n) = n :=
  Nat.ofDigitChars_toDigits (by decide) (by decide)

@[simp] theorem isRun_ofNat (n : Nat) : isRun (ofNat n) = true :=
  isRun_iff.2 ⟨ofNat_ne_nil n, fun _ h => isDigit_of_mem_ofNat h⟩

theorem splitSign_of_isRun {cs : List Char} (h : isRun cs) : splitSign cs = (false, cs) := by
  match cs, h with
  | c :: cs, h =>
    have hd : c.isDigit := by simp_all [isRun]
    unfold splitSign
    split
    · simp_all [Char.isDigit]
    · simp_all [Char.isDigit]
    · rfl

theorem readInt64?_ofInt (x : Int) : readInt64? (ofInt x) = narrow? x := by
  cases x with
  | ofNat n => simp [readInt64?, ofInt, splitSign_of_isRun, signed]
  | negSucc n => simp [readInt64?, ofInt, splitSign, signed, Int.negSucc_eq]

@[simp] theorem readInt64?_ofInt64 (v : Int64) : readInt64? (ofInt64 v) = some v := by
  simp [ofInt64, readInt64?_ofInt]

end ArithTree.Numeral
