import ArithTree.Numeral

/-!
# Unsigned numerals

Natural numbers below `2 ^ 64` in decimal: an optional plus sign and one or more ASCII digits. The
digits are taken from left to right, and the first one that cannot be taken says what is wrong.
-/

namespace ArithTree.Numeral

/-- Why a text is no unsigned numeral. -/
inductive Fault where
  | empty
  | invalidDigit
  | tooLarge
  deriving DecidableEq, Repr

def Fault.message : Fault → String
  | .empty => "cannot parse integer from empty string"
  | .invalidDigit => "invalid digit found in string"
  | .tooLarge => "number too large to fit in target type"

def readDigits (n : Nat) : List Char → Except Fault Nat
  | [] => .ok n
  | c :: cs =>
    if c.isDigit then
      let n := Nat.ofDigitChars 10 [c] n
      if n < UInt64.size then readDigits n cs else .error .tooLarge
    else .error .invalidDigit

/-- An unsigned numeral. A plus sign alone is taken for a digit, and refused as one. -/
def readUnsigned : List Char → Except Fault Nat
  | [] => .error .empty
  | '+' :: c :: cs => readDigits 0 (c :: cs)
  | cs => readDigits 0 cs

end ArithTree.Numeral
