import ArithTree.Numeral
import Mathlib.Algebra.Group.Nat.Defs

/-!
# Spellings of an integer

An integer has other spellings than the written one: leading zeros, a plus sign, and a minus sign
before zero. These are all the texts that read as the integer (`readInt64?_eq_some_iff`).
-/

namespace ArithTree.Numeral

/-- A sign that fits an integer; both signs fit zero. -/
def IsSign (x : Int) (sign : List Char) : Prop :=
  0 ≤ x ∧ (sign = [] ∨ sign = ['+']) ∨ x ≤ 0 ∧ sign = ['-']

/-- A sign that fits, any number of zeros, and the digits as they are written. -/
def Spelling (x : Int) (cs : List Char) : Prop :=
  ∃ sign zeros, IsSign x sign ∧ cs = sign ++ (List.replicate zeros '0' ++ ofNat x.natAbs)

/-! ## Leading zeros -/

theorem toNat_append (cs ds : List Char) :
    toNat (cs ++ ds) = Nat.ofDigitChars 10 ds (toNat cs) :=
  Nat.ofDigitChars_append 0

theorem toNat_zeros_append (zeros : Nat) (cs : List Char) :
    toNat (List.replicate zeros '0' ++ cs) = toNat cs := by
  rw [toNat_append, toNat, Nat.ofDigitChars_replicate_zero, Nat.mul_zero, toNat]

theorem isRun_zeros_append (zeros : Nat) {ds : List Char} (h : isRun ds) :
    isRun (List.replicate zeros '0' ++ ds) := by
  obtain ⟨hne, hds⟩ := isRun_iff.1 h
  refine isRun_iff.2 ⟨List.append_ne_nil_of_right_ne_nil _ hne, fun c hc => ?_⟩
  rcases List.mem_append.1 hc with hc | hc
  · rw [List.eq_of_mem_replicate hc]
    decide
  · exact hds c hc

/-- The value of a digit. -/
def digitValue (c : Char) : Nat := c.toNat - '0'.toNat

theorem ofNat_digitValue {c : Char} (h : c.isDigit) :
    digitValue c < 10 ∧ ofNat (digitValue c) = [c] := by
  obtain ⟨hlow, hhigh⟩ : 48 ≤ c.toNat ∧ c.toNat ≤ 57 := Char.isDigit_iff_toNat.1 h
  have hvalue : digitValue c = c.toNat - 48 := rfl
  have hlt : digitValue c < 10 := by omega
  have hchar : (digitValue c).digitChar = c := by
    rw [← Char.toNat_inj, Nat.toNat_digitChar_of_lt_ten hlt]
    omega
  exact ⟨hlt, by rw [ofNat, Nat.toDigits_of_lt_base hlt, hchar]⟩

/-- Digits behind the written form of a positive number belong to the written form. -/
theorem ofNat_append {n : Nat} {ds : List Char} (hn : 0 < n) (hds : ∀ c ∈ ds, c.isDigit) :
    ofNat n ++ ds = ofNat (Nat.ofDigitChars 10 ds n) := by
  induction ds generalizing n with
  | nil => simp
  | cons c ds ih =>
    rw [List.forall_mem_cons] at hds
    obtain ⟨hlt, hc⟩ := ofNat_digitValue hds.1
    calc ofNat n ++ c :: ds
        = (ofNat n ++ ofNat (digitValue c)) ++ ds := by rw [hc, List.append_assoc]; rfl
      _ = ofNat (10 * n + digitValue c) ++ ds := by
        rw [ofNat, ofNat, Nat.toDigits_append_toDigits (by decide) hn hlt, ← ofNat]
      _ = ofNat (Nat.ofDigitChars 10 (c :: ds) n) := by
        rw [ih (by omega) hds.2, Nat.ofDigitChars_cons, digitValue]

/-- Digits are leading zeros and the written form of their value. -/
theorem exists_zeros {ds : List Char} (hne : ds ≠ []) (hds : ∀ c ∈ ds, c.isDigit) :
    ∃ zeros, ds = List.replicate zeros '0' ++ ofNat (toNat ds) := by
  induction ds with
  | nil => exact absurd rfl hne
  | cons c ds ih =>
    rw [List.forall_mem_cons] at hds
    obtain ⟨-, hc⟩ := ofNat_digitValue hds.1
    have hvalue : toNat (c :: ds) = Nat.ofDigitChars 10 ds (digitValue c) := by
      rw [toNat, Nat.ofDigitChars_cons, Nat.mul_zero, Nat.zero_add, digitValue]
    -- From the first digit that is not zero on, nothing is left out of the written form.
    rcases Nat.eq_zero_or_pos (digitValue c) with hzero | hpos
    · obtain rfl : '0' = c := by simpa [hzero, ofNat] using hc
      rw [hzero] at hvalue
      by_cases hnil : ds = []
      · subst hnil
        exact ⟨0, rfl⟩
      · obtain ⟨zeros, hzeros⟩ := ih hnil hds.2
        exact ⟨zeros + 1, by rw [hvalue, ← toNat, List.replicate_succ, List.cons_append, ← hzeros]⟩
    · exact ⟨0, by rw [hvalue, ← ofNat_append hpos hds.2, hc]; rfl⟩

/-! ## Values of parts -/

theorem toNat_append_eq (a b : List Char) :
    toNat (a ++ b) = 10 ^ b.length * toNat a + toNat b := by
  rw [toNat_append, Nat.ofDigitChars_eq_ofDigitChars_zero]
  rfl

theorem toNat_le_append (a b : List Char) : toNat a ≤ toNat (a ++ b) := by
  have := Nat.le_mul_of_pos_left (toNat a) (Nat.pow_pos (n := b.length) (by decide : 0 < 10))
  rw [toNat_append_eq]
  omega

theorem toNat_le_append_left (a b : List Char) : toNat b ≤ toNat (a ++ b) := by
  rw [toNat_append_eq]
  exact Nat.le_add_left _ _

theorem toNat_lt {ds : List Char} (hds : ∀ c ∈ ds, c.isDigit) :
    toNat ds < 10 ^ ds.length := by
  induction ds with
  | nil => decide
  | cons c ds ih =>
    rw [List.forall_mem_cons] at hds
    obtain ⟨hlt, -⟩ := ofNat_digitValue hds.1
    have hc : toNat [c] = digitValue c := by
      simp [toNat, digitValue, Nat.ofDigitChars_cons]
    have hmul := Nat.mul_le_mul_left (10 ^ ds.length) (Nat.le_of_lt_succ hlt)
    rw [← List.singleton_append, toNat_append_eq, hc, List.length_append, List.length_singleton,
      Nat.add_comm 1, Nat.pow_succ]
    have := ih hds.2
    omega

/-! ## Signs -/

section
variable {cs ds : List Char}

theorem splitSign_eq_true (h : splitSign cs = (true, ds)) : cs = '-' :: ds := by
  unfold splitSign at h
  split at h <;> simp_all

theorem splitSign_eq_false (h : splitSign cs = (false, ds)) : cs = ds ∨ cs = '+' :: ds := by
  unfold splitSign at h
  split at h <;> simp_all

end

theorem eq_signed_iff {x : Int} {negative : Bool} {n : Nat} :
    x = signed negative n ↔ (if negative then x ≤ 0 else 0 ≤ x) ∧ x.natAbs = n := by
  cases negative <;> simp [signed] <;> omega

/-- A spelling is a sign before digits whose value, with the sign, is the integer. -/
theorem spelling_iff {x : Int} {cs : List Char} : Spelling x cs ↔
    isRun (splitSign cs).2 ∧ x = signed (splitSign cs).1 (toNat (splitSign cs).2) := by
  constructor
  · rintro ⟨sign, zeros, hsign, rfl⟩
    have hrun := isRun_zeros_append zeros (isRun_ofNat x.natAbs)
    have hvalue : x.natAbs = toNat (List.replicate zeros '0' ++ ofNat x.natAbs) := by
      rw [toNat_zeros_append, toNat_ofNat]
    rcases hsign with ⟨hx, rfl | rfl⟩ | ⟨hx, rfl⟩
    · rw [List.nil_append, splitSign_of_isRun hrun]
      exact ⟨hrun, eq_signed_iff.2 ⟨hx, hvalue⟩⟩
    · exact ⟨hrun, eq_signed_iff.2 ⟨hx, hvalue⟩⟩
    · exact ⟨hrun, eq_signed_iff.2 ⟨hx, hvalue⟩⟩
  · rcases hsplit : splitSign cs with ⟨negative, ds⟩
    rintro ⟨hrun, hx⟩
    obtain ⟨hne, hds⟩ := isRun_iff.1 hrun
    obtain ⟨zeros, hzeros⟩ := exists_zeros hne hds
    obtain ⟨hsign, habs⟩ := eq_signed_iff.1 hx
    rw [← habs] at hzeros
    cases negative with
    | true => exact ⟨['-'], zeros, .inr ⟨hsign, rfl⟩, hzeros ▸ splitSign_eq_true hsplit⟩
    | false =>
      rcases splitSign_eq_false hsplit with h | h
      · exact ⟨[], zeros, .inl ⟨hsign, .inl rfl⟩, hzeros ▸ h⟩
      · exact ⟨['+'], zeros, .inl ⟨hsign, .inr rfl⟩, hzeros ▸ h⟩

/-- The spellings of an integer are all the texts that read as it. -/
theorem readInt64?_eq_some_iff {cs : List Char} {v : Int64} :
    readInt64? cs = some v ↔ Spelling v.toInt cs := by
  rw [spelling_iff]
  simp [readInt64?, narrow?_eq_some_iff]

example : readInt64? "-00".toList = some 0 ∧ readInt64? "+007".toList = some 7 := by decide

end ArithTree.Numeral
