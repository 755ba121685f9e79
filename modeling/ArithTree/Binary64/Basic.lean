/-!
# Binary floating-point numbers

Numbers with 53 significant bits as exact data: a finite one is a sign, a significand and a power
of two. `ofRatio` rounds a quotient of naturals to the nearest number, and to the even significand
if two are equally near; too large a quotient becomes infinite.
-/

namespace ArithTree

/-- A binary floating-point number. A finite one has the magnitude `significand * 2 ^ exponent`;
its exponent is at least `Binary64.leastExponent`, and its significand has 53 bits unless the
exponent is the least one. -/
inductive Binary64 where
  | finite (negative : Bool) (significand : Nat) (exponent : Int)
  | infinite (negative : Bool)
  | nan
  deriving DecidableEq, Repr

namespace Binary64

/-- The exponent of the smallest numbers. -/
def leastExponent : Int := -1074

/-- The exponent of the largest numbers. -/
def greatestExponent : Int := 971

def zero (negative : Bool) : Binary64 := .finite negative 0 leastExponent

/-- The quotient rounded to the nearest integer, a half to the even one. -/
def roundDiv (num den : Nat) : Nat :=
  let q := num / den
  let r := num % den
  if den < 2 * r ∨ (2 * r = den ∧ q % 2 = 1) then q + 1 else q

/-- A quotient scaled by a power of two, as numerator and denominator. -/
def scale (num den : Nat) (power : Int) : Nat × Nat :=
  match power with
  | .ofNat k => (num <<< k, den)
  | .negSucc k => (num, den <<< (k + 1))

/-- The exponent `k` with `2 ^ k ≤ num / den < 2 ^ (k + 1)`, for positive operands. -/
def binade (num den : Nat) : Int :=
  let k : Int := num.log2 - den.log2
  let (n, d) := scale num den (-k)
  if d ≤ n then k else k - 1

/-- The number nearest to a quotient; a zero numerator or denominator gives zero. -/
def ofRatio (negative : Bool) (num den : Nat) : Binary64 :=
  if num = 0 ∨ den = 0 then zero negative else
  let exponent := max leastExponent (binade num den - 52)
  let (n, d) := scale num den (-exponent)
  let m := roundDiv n d
  let (m, exponent) := if m = 1 <<< 53 then (1 <<< 52, exponent + 1) else (m, exponent)
  if greatestExponent < exponent then .infinite negative else .finite negative m exponent

/-- The interchange encoding: the sign in the highest bit, eleven bits of biased exponent and the
significand without its leading bit. -/
def bits : Binary64 → Nat
  | .finite negative m exponent =>
    let low := if m < 1 <<< 52 then m else (exponent + 1075).toNat <<< 52 + (m - 1 <<< 52)
    if negative then 1 <<< 63 + low else low
  | .infinite negative => (if negative then 1 <<< 63 else 0) + 0x7FF <<< 52
  | .nan => 0xFFF <<< 51

end Binary64

end ArithTree
