import ArithTree.Binary64.Basic
import ArithTree.Numeral

/-!
# Shortest decimals

The text of a real has the fewest significant digits that read back to the same number, and of
those the nearest to it. The search goes from coarse decimal grids to fine ones and stops at the
first grid with a point in the rounding interval; on each grid only the two neighbours of the
number need a look. Everything is exact arithmetic on naturals.
-/

namespace ArithTree.Binary64

/-- The reals that round to a number, in quarters of the unit of its last place: `low` to `high`
around `mid`, ends included if `closed`. -/
structure Interval where
  low : Nat
  mid : Nat
  high : Nat
  closed : Bool
  deriving Repr

/-- The rounding interval of a positive number. The distance to the number below is halved at a
power of two, and the ends round to the number itself if its significand is even. -/
def interval (significand : Nat) (exponent : Int) : Interval :=
  let narrow := significand = 1 <<< 52 ∧ leastExponent < exponent
  { low := 4 * significand - (if narrow then 1 else 2)
    mid := 4 * significand
    high := 4 * significand + 2
    closed := significand % 2 = 0 }

/-- One quarter of the unit `2 ^ exponent` against the step `10 ^ place`, as a quotient. -/
def quarterStep (exponent place : Int) : Nat × Nat :=
  let power := exponent - 2
  (Nat.pow 10 (-place).toNat <<< power.toNat, Nat.pow 10 place.toNat <<< (-power).toNat)

/-- The point of the grid `10 ^ place` that stands for the number: the nearer neighbour inside the
interval, the upper one if both are equally near. -/
def pick? (i : Interval) (exponent place : Int) : Option Nat :=
  let (a, b) := quarterStep exponent place
  let inside (x : Nat) : Bool :=
    if i.closed then i.low * a ≤ x * b && x * b ≤ i.high * a
    else i.low * a < x * b && x * b < i.high * a
  let below := i.mid * a / b
  let above := below + 1
  match inside below, inside above with
  | true, true => some (if i.mid * a - below * b < above * b - i.mid * a then below else above)
  | true, false => some below
  | false, true => some above
  | false, false => none

/-- The first point on `count` grids, each ten times as fine as the one before. -/
def search (i : Interval) (exponent : Int) : (count : Nat) → (place : Int) → Nat × Int
  | 0, place => (0, place)
  | count + 1, place =>
    match pick? i exponent place with
    | some digits => (digits, place)
    | none => search i exponent count (place - 1)

/-- The digits of a positive number and the power of ten of the last one. The first grid lies above
the number, and the number has a point within seventeen digits. -/
def shortest (significand : Nat) (exponent : Int) : Nat × Int :=
  let bits : Int := significand.log2 + 1 + exponent
  search (interval significand exponent) exponent 22 (bits * 30103 / 100000 + 2)

/-- Digits with the last one at `10 ^ place`, in positional form. -/
def positional (digits : List Char) (place : Int) : List Char :=
  match place with
  | .ofNat zeros => digits ++ List.replicate zeros '0'
  | .negSucc k =>
    let decimals := k + 1
    if decimals < digits.length then
      digits.take (digits.length - decimals) ++ '.' :: digits.drop (digits.length - decimals)
    else
      "0.".toList ++ List.replicate (decimals - digits.length) '0' ++ digits

def magnitudeText (significand : Nat) (exponent : Int) : List Char :=
  if significand = 0 then ['0']
  else
    let (digits, place) := shortest significand exponent
    positional (Numeral.ofNat digits) place

/-- The text of a real, never with an exponent. -/
def text : Binary64 → List Char
  | .nan => "NaN".toList
  | .infinite negative => (if negative then "-inf" else "inf").toList
  | .finite negative significand exponent =>
    let body := magnitudeText significand exponent
    if negative then '-' :: body else body

end ArithTree.Binary64
