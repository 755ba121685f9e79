import ArithTree.Binary64.Basic
import ArithTree.Numeral

/-!
# Reading reals

A real is an optional sign before a name (`inf`, `infinity` or `nan`, in any letter case) or a
decimal: digits with at most one point and at least one digit, then an optional exponent. The
value of a decimal is the nearest binary number.
-/

namespace ArithTree.Binary64

open Numeral (isRun toNat splitSign signed)

/-- An unsigned decimal, `significand * 10 ^ exponent`. -/
structure Decimal where
  significand : Nat
  exponent : Int
  deriving DecidableEq, Repr

/-- The exponent that follows the digits of a decimal: nothing, or a marked signed integer. -/
def readExponent? : List Char → Option Int
  | [] => some 0
  | 'e' :: cs | 'E' :: cs =>
    let (negative, digits) := splitSign cs
    if isRun digits then some (signed negative (toNat digits)) else none
  | _ => none

/-- Digits with an optional point among them and an optional exponent after them. -/
def readDecimal? (cs : List Char) : Option Decimal :=
  let whole := cs.takeWhile Char.isDigit
  let (fraction, rest) :=
    match cs.dropWhile Char.isDigit with
    | '.' :: cs => (cs.takeWhile Char.isDigit, cs.dropWhile Char.isDigit)
    | cs => ([], cs)
  if whole.isEmpty && fraction.isEmpty then none
  else (readExponent? rest).map fun e => ⟨toNat (whole ++ fraction), e - fraction.length⟩

/-- The number nearest to a decimal. A decimal with its leading digit at `10 ^ 310` or beyond is
infinite and one below `10 ^ (-330)` is zero, whatever its digits, so no larger power is formed. -/
def ofDecimal (negative : Bool) (d : Decimal) : Binary64 :=
  let magnitude := (Numeral.ofNat d.significand).length + d.exponent
  if d.significand = 0 ∨ magnitude < -330 then zero negative
  else if 310 < magnitude then .infinite negative
  else
    match d.exponent with
    | .ofNat k => ofRatio negative (d.significand * Nat.pow 10 k) 1
    | .negSucc k => ofRatio negative d.significand (Nat.pow 10 (k + 1))

def ofName? (negative : Bool) (name : List Char) : Option Binary64 :=
  match String.ofList (name.map Char.toLower) with
  | "inf" | "infinity" => some (.infinite negative)
  | "nan" => some .nan
  | _ => none

/-- A real in any spelling. -/
def read? (cs : List Char) : Option Binary64 :=
  let (negative, body) := splitSign cs
  match ofName? negative body with
  | some x => some x
  | none => (readDecimal? body).map (ofDecimal negative)

end ArithTree.Binary64
