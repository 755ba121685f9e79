import ArithTree.Grammar.Parser
import Mathlib.Data.List.Infix

/-!
# Open parentheses

`AtMostOpen n cs`: no more than `n` parentheses are open at once anywhere in the text `cs`. It is a
statement about the characters alone. A text is `Balanced` if it closes as many parentheses as it
opens; `atMostOpen_append` and `atMostOpen_group` reduce texts made of balanced parts to the parts.
-/

namespace ArithTree

/-- Every part from the start of the text on leaves at most `n` parentheses open. -/
def AtMostOpen (n : Nat) (cs : List Char) : Prop :=
  ∀ p, p <+: cs → p.count '(' ≤ p.count ')' + n

instance (n : Nat) : DecidablePred (AtMostOpen n) := fun cs =>
  decidable_of_iff (∀ p ∈ cs.inits, p.count '(' ≤ p.count ')' + n) (by simp [AtMostOpen])

/-- As many parentheses close as open. -/
def Balanced (cs : List Char) : Prop := cs.count '(' = cs.count ')'

/-- A character that is no parenthesis. -/
def isFlat (c : Char) : Bool := !(c == '(' || c == ')')

/-! ## Balance -/

theorem count_of_flat {cs : List Char} (h : ∀ c ∈ cs, isFlat c) :
    cs.count '(' = 0 ∧ cs.count ')' = 0 := by
  constructor <;> exact List.count_eq_zero.2 fun hm => absurd (h _ hm) (by decide)

theorem Balanced.of_flat {cs : List Char} (h : ∀ c ∈ cs, isFlat c) : Balanced cs := by
  rw [Balanced, (count_of_flat h).1, (count_of_flat h).2]

theorem Balanced.append {a b : List Char} (ha : Balanced a) (hb : Balanced b) :
    Balanced (a ++ b) := by
  simp only [Balanced, List.count_append] at *
  omega

theorem Balanced.group {a : List Char} (ha : Balanced a) : Balanced ('(' :: (a ++ [')'])) := by
  rw [Balanced] at *
  simp [ha]

/-! ## Bounds -/

theorem AtMostOpen.mono {m n : Nat} {cs : List Char} (h : AtMostOpen m cs) (hmn : m ≤ n) :
    AtMostOpen n cs := fun p hp => (h p hp).trans (by omega)

theorem AtMostOpen.of_flat {cs : List Char} (h : ∀ c ∈ cs, isFlat c) (n : Nat) :
    AtMostOpen n cs := fun p hp => by
  rw [(count_of_flat fun c hc => h c (hp.subset hc)).1]
  exact Nat.zero_le _

theorem atMostOpen_append {n : Nat} {a b : List Char} (ha : Balanced a) :
    AtMostOpen n (a ++ b) ↔ AtMostOpen n a ∧ AtMostOpen n b := by
  refine ⟨fun h => ⟨fun p hp => h p (List.prefix_append_of_prefix hp), fun p hp => ?_⟩,
    fun ⟨h, h'⟩ p hp => ?_⟩
  · have := h (a ++ p) ((List.prefix_append_right_inj a).2 hp)
    simp only [List.count_append] at this
    rw [Balanced] at ha
    omega
  · rcases List.prefix_or_prefix_of_prefix hp (List.prefix_append a b) with hpa | ⟨q, rfl⟩
    · exact h p hpa
    · have := h' q ((List.prefix_append_right_inj a).1 hp)
      simp only [List.count_append]
      rw [Balanced] at ha
      omega

theorem atMostOpen_cons_open {n : Nat} {cs : List Char} :
    AtMostOpen n ('(' :: cs) ↔ 0 < n ∧ AtMostOpen (n - 1) cs := by
  refine ⟨fun h => ?_, fun ⟨hn, h⟩ p hp => ?_⟩
  · have hp (p) (hp : p <+: cs) : p.count '(' + 1 ≤ p.count ')' + n := by
      have := h ('(' :: p) (List.prefix_cons_inj '(' |>.2 hp)
      rwa [List.count_cons_self, List.count_cons_of_ne (by decide)] at this
    have h0 := hp [] List.nil_prefix
    simp only [List.count_nil] at h0
    exact ⟨by omega, fun p hpre => by have := hp p hpre; omega⟩
  · rcases List.prefix_cons_iff.1 hp with rfl | ⟨q, rfl, hq⟩
    · exact Nat.zero_le _
    · have := h q hq
      rw [List.count_cons_self, List.count_cons_of_ne (by decide)]
      omega

/-- A balanced text in parentheses. -/
theorem atMostOpen_group {n : Nat} {a : List Char} (ha : Balanced a) :
    AtMostOpen n ('(' :: (a ++ [')'])) ↔ 0 < n ∧ AtMostOpen (n - 1) a := by
  have hclose : AtMostOpen (n - 1) [')'] := by
    intro p hp
    rcases List.prefix_cons_iff.1 hp with rfl | ⟨q, rfl, hq⟩
    · exact Nat.zero_le _
    · rw [List.prefix_nil.1 hq]
      simp
  rw [atMostOpen_cons_open, atMostOpen_append ha]
  simp [hclose]

end ArithTree
