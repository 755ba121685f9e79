import ArithTree.Grammar.Formula
import ArithTree.Proofs.Grammar.Literal
import ArithTree.Proofs.Grammar.Nesting

/-!
# The language of formulas

What a formula is and which tree it denotes, without regard to any parser: a grammar of three ranks
as a relation between texts and trees. A factor is a literal or a sum in parentheses, a product is
a chain of factors, a sum is a chain of products. Chains are grouped to the left and parentheses add
no node.

* `Derives k cs t`: the text `cs` is of rank `k` and denotes `t`; blanks may stand before every
  literal, sign and parenthesis.
* `Denotes cs t`: `cs` is a sum with blanks after it.
* `Derives.balanced`, `atMostOpen_more`, `atMostOpen_nested`: the parentheses of a derived text are
  those of its parts.
-/

namespace ArithTree

namespace Formula

open ArithTree.Parser

/-- The ranks of the grammar, the tightest first. -/
inductive Rank where
  | factor
  | product
  | sum
  deriving DecidableEq, Repr

/-- The rank of the operands of a chain. -/
def Rank.below : Rank → Rank
  | .factor | .product => .factor
  | .sum => .product

end Formula

/-- The rank of the chains that an operator stands in. -/
def Op.rank : Op → Formula.Rank
  | .add | .sub => .sum
  | .mul | .div => .product

namespace Formula

open ArithTree.Parser

/-- The text `cs` is of rank `k` and denotes the tree `t`. -/
inductive Derives : Rank → List Char → Tree → Prop
  | literal {cs : List Char} {v : Int64} (spells : Spells cs v) : Derives .factor cs (.lit v)
  | group {w cs w' : List Char} {t : Tree} (before : Blanks w) (inner : Derives .sum cs t)
      (after : Blanks w') : Derives .factor (w ++ '(' :: ((cs ++ w') ++ [')'])) t
  | one {k : Rank} {cs : List Char} {t : Tree} (chain : k ≠ .factor)
      (operand : Derives k.below cs t) : Derives k cs t
  | more {k : Rank} {op : Op} {a w b : List Char} {l r : Tree} (rank : op.rank = k)
      (left : Derives k a l) (before : Blanks w) (right : Derives k.below b r) :
      Derives k (a ++ (w ++ (op.sign.toList ++ b))) (.node op l r)

/-- The whole text `cs` denotes the tree `t`. -/
def Denotes (cs : List Char) (t : Tree) : Prop :=
  ∃ a w, cs = a ++ w ∧ Derives .sum a t ∧ Blanks w

/-! ## Ranks -/

section
variable {k : Rank} {cs : List Char} {t : Tree}

theorem Derives.of_below (h : Derives k.below cs t) : Derives k cs t := by
  by_cases hk : k = .factor
  · subst hk
    exact h
  · exact .one hk h

theorem Derives.of_factor (h : Derives .factor cs t) : Derives k cs t := by
  cases k with
  | factor => exact h
  | product => exact .of_below h
  | sum => exact .of_below (k := .sum) (.of_below (k := .product) h)

theorem Derives.product (h : Derives k cs t) (hk : k ≠ .sum) : Derives .product cs t := by
  cases k with
  | factor => exact h.of_factor
  | product => exact h
  | sum => exact absurd rfl hk

theorem Derives.sum (h : Derives k cs t) : Derives .sum cs t := by
  cases k with
  | factor => exact h.of_factor
  | product => exact .of_below (k := .sum) h
  | sum => exact h

end

/-! ## Characters -/

theorem isFlat_of_isBlank {c : Char} (h : isBlank c) : isFlat c := by
  simp only [isBlank, Bool.or_eq_true, beq_iff_eq] at h
  rcases h with ((rfl | rfl) | rfl) | rfl <;> rfl

theorem flat_of_blanks {w : List Char} (hw : Blanks w) : ∀ c ∈ w, isFlat c :=
  fun c hc => isFlat_of_isBlank (hw c hc)

theorem isFlat_of_isDigit {c : Char} (h : c.isDigit) : isFlat c := by
  cases hf : isFlat c with
  | true => rfl
  | false =>
    simp only [isFlat, Bool.not_eq_false', Bool.or_eq_true, beq_iff_eq] at hf
    rcases hf with rfl | rfl <;> cases h

theorem isFlat_sign (op : Op) : ∀ c ∈ op.sign.toList, isFlat c := by
  cases op <;> simp [Op.sign, isFlat]

theorem flat_of_spells {cs : List Char} {v : Int64} (h : Spells cs v) : ∀ c ∈ cs, isFlat c := by
  intro c hc
  rcases h.mem hc with hblank | rfl | hdigit
  · exact isFlat_of_isBlank hblank
  · rfl
  · exact isFlat_of_isDigit hdigit

theorem flat_sign {op : Op} {w : List Char} (hw : Blanks w) :
    ∀ c ∈ w ++ op.sign.toList, isFlat c := fun c hc =>
  (List.mem_append.1 hc).elim (flat_of_blanks hw c) (isFlat_sign op c)

/-! ## Parentheses of derived texts -/

theorem Derives.balanced {k : Rank} {cs : List Char} {t : Tree} (h : Derives k cs t) :
    Balanced cs := by
  induction h with
  | literal hv => exact .of_flat (flat_of_spells hv)
  | group hw _ hw' ih =>
    have hbefore := Balanced.of_flat (flat_of_blanks hw)
    have hafter := Balanced.of_flat (flat_of_blanks hw')
    exact hbefore.append (ih.append hafter).group
  | one _ _ ih => exact ih
  | @more _ op _ w _ _ _ _ _ hw _ ihl ihr =>
    rw [← List.append_assoc w]
    exact ihl.append ((Balanced.of_flat (flat_sign hw)).append ihr)

theorem atMostOpen_more {n : Nat} {k : Rank} {op : Op} {a w b : List Char} {l : Tree}
    (left : Derives k a l) (hw : Blanks w) :
    AtMostOpen n (a ++ (w ++ (op.sign.toList ++ b))) ↔ AtMostOpen n a ∧ AtMostOpen n b := by
  rw [atMostOpen_append left.balanced, ← List.append_assoc w,
    atMostOpen_append (.of_flat (flat_sign hw))]
  simp [AtMostOpen.of_flat (flat_sign hw) n]

theorem atMostOpen_nested {n : Nat} {k : Rank} {w cs w' : List Char} {t : Tree} (hw : Blanks w)
    (inner : Derives k cs t) (hw' : Blanks w') :
    AtMostOpen n (w ++ '(' :: ((cs ++ w') ++ [')'])) ↔ 0 < n ∧ AtMostOpen (n - 1) cs := by
  have hflat := flat_of_blanks hw
  have hflat' := flat_of_blanks hw'
  have hinner := inner.balanced.append (.of_flat hflat')
  rw [atMostOpen_append (.of_flat hflat), atMostOpen_group hinner, atMostOpen_append inner.balanced]
  simp [AtMostOpen.of_flat hflat n, AtMostOpen.of_flat hflat' (n - 1)]

end Formula

end ArithTree
