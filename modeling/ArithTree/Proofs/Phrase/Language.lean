import ArithTree.Grammar.Phrase
import ArithTree.Proofs.Grammar.Literal

/-!
# The language of phrases

What a phrase is and which tree it denotes, without regard to any parser, and what the parser does
with a text that starts with one.

* `Derives cs t`: the text `cs` is a phrase and denotes `t`. Words are set apart by gaps of one or
  more blanks, and blanks may stand before the first one.
* `Denotes cs t`: `cs` is a phrase with blanks after it.
* `Derives.on_operand`: with `n` articles left to open, a phrase is taken off the text as its tree,
  unless the tree has more than `n + 1` levels or more than an expression. Only its last literal
  could go on, so all that is asked of the text behind it is that no digit comes first.
-/

namespace ArithTree.Phrase

open ArithTree.Parser

/-- The text `cs` is a phrase and denotes the tree `t`. -/
inductive Derives : List Char → Tree → Prop
  | literal {cs : List Char} {v : Int64} (spells : Spells cs v) : Derives cs (.lit v)
  | operator {op : Op} {w g₁ g₂ g₃ g₄ g₅ a b : List Char} {l r : Tree} (before : Blanks w)
      (noun : Gap g₁) (preposition : Gap g₂) (first : Gap g₃) (left : Derives a l)
      (conjunction : Gap g₄) (second : Gap g₅) (right : Derives b r) :
      Derives (w ++ ("the".toList ++ (g₁ ++ (op.noun.toList ++ (g₂ ++ ("of".toList ++ (g₃ ++ (a ++
        (g₄ ++ ("and".toList ++ (g₅ ++ b))))))))))) (.node op l r)

/-- The whole text `cs` denotes the tree `t`. -/
def Denotes (cs : List Char) (t : Tree) : Prop :=
  ∃ a w, cs = a ++ w ∧ Derives a t ∧ Blanks w

/-! ## Nouns and articles -/

variable {op : Op} {inner : Parser Expr} {x : Int64} {a g g' w cs : List Char}

theorem isSolid_noun (op : Op) : isSolid op.noun := by
  cases op <;> rfl

/-- No noun starts with another one. -/
theorem noun_prefix {op' : Op} (h : op'.noun.toList <+: op.noun.toList ++ cs) : op' = op := by
  obtain ⟨rest, h⟩ := h
  cases op <;> cases op' <;> first | rfl | simp [Op.noun] at h

theorem on_noun (op : Op) (cs : List Char) :
    noun.on (op.noun.toList ++ cs) = .done op (.start cs) :=
  on_oneOf_word op.mem_all fun _ _ => noun_prefix

/-- No literal starts with an article. -/
theorem article_mismatch (ha : Spells a x) (cs : List Char) :
    ¬ "the".toList <+: (a ++ cs).dropWhile isBlank := by
  obtain ⟨w, negative, ds, rfl, hw, hds, -⟩ := ha
  obtain ⟨d, hd, hdig⟩ := exists_head_of_isRun hds cs
  rw [List.append_assoc, List.append_assoc, hw.dropWhile_append, dropWhile_minus negative hds]
  rintro ⟨rest, h⟩
  cases negative with
  | true => simp [minus] at h
  | false =>
    rw [minus, if_neg (by decide), List.nil_append] at h
    rw [← h] at hd
    cases hd
    cases hdig

/-- No literal goes on into a conjunction. -/
theorem noDigit_conjunction (hg : Gap g) (cs : List Char) : NoDigit (g ++ ("and".toList ++ cs)) :=
  .blanks_append hg.2 (by rintro _ ⟨⟩; decide)

/-! ## Phrases taken off a text -/

theorem on_operand_literal (ha : Spells a x) (hcs : NoDigit cs) :
    (operand inner).on (a ++ cs) = .done (.number x) (.start cs) := by
  rw [operand, on_orElse, on_blanks_word_of_mismatch (article_mismatch ha cs),
    Outcome.refused_orElse, on_literal_append ha hcs]

theorem on_operand_article (hw : Blanks w) (hg : Gap g) (cs : List Char) :
    (operand inner).on (w ++ ("the".toList ++ (g ++ cs))) = inner.on (cs.dropWhile isBlank) := by
  have hlit : literal.on (w ++ ("the".toList ++ (g ++ cs))) = .refused :=
    on_literal_of_word (by rintro _ ⟨⟩; decide) rfl hw _
  rw [operand, on_orElse, hlit, Outcome.orElse_refused, on_blanks_word rfl hw, on_bind,
    on_blanks1 hg, Outcome.done_andThen, Cursor.rest_start]

/-- A phrase may start with blanks, so a gap before it is of any length. -/
theorem on_gap_operand {β : Type} (hg : Gap g) (f : Expr → Parser β) (cs : List Char) :
    (do blanks1; let e ← operand inner; f e : Parser β).on (g ++ cs) =
      ((operand inner).on cs).andThen fun e rest => (f e).on rest := by
  have hdrop : (operand inner).on (cs.dropWhile isBlank) = (operand inner).on cs := by
    simp only [operand, on_orElse, on_bind, on_blanks, Outcome.done_andThen, Cursor.rest_start,
      on_literal, on_integer, dropWhile_isBlank_idem]
  rw [on_bind, on_blanks1 hg, Outcome.done_andThen, Cursor.rest_start, on_bind, hdrop]

/-- What follows the left operand of a phrase. -/
def conjoined (inner : Parser Expr) (op : Op) (l : Expr) : Parser Expr := do
  blanks1
  word "and"
  blanks1
  let r ← operand inner
  combine op l r

theorem on_binary (hg : Gap g) (hg' : Gap g') (cs : List Char) :
    (binary inner).on (op.noun.toList ++ (g ++ ("of".toList ++ (g' ++ cs)))) =
      ((operand inner).on cs).andThen fun l rest => (conjoined inner op l).on rest := by
  rw [binary, on_bind, on_noun, Outcome.done_andThen, Cursor.rest_start, on_blanks1_word rfl hg,
    on_gap_operand hg']
  rfl

theorem on_conjoined (hg : Gap g) (hg' : Gap g') (l : Expr) (cs : List Char) :
    (conjoined inner op l).on (g ++ ("and".toList ++ (g' ++ cs))) =
      ((operand inner).on cs).andThen fun r rest => (combine op l r).on rest := by
  rw [conjoined, on_blanks1_word rfl hg, on_gap_operand hg']

/-- **Derived phrases are read.** -/
theorem Derives.on_operand {a : List Char} {t : Tree} (h : Derives a t) (n : Nat) {b : List Char}
    (hb : NoDigit b) : (operand (within .phrase binary n)).on (a ++ b) = .bounded (n + 1) t b := by
  induction h generalizing n b with
  | literal ha => rw [on_operand_literal ha hb, bounded_lit]
  | @operator op w g₁ g₂ g₃ g₄ g₅ a c l r hw hg₁ hg₂ hg₃ _ hg₄ hg₅ _ ihl ihr =>
    simp only [List.append_assoc]
    rw [on_operand_article hw hg₁, dropWhile_solid (isSolid_noun op)]
    cases n with
    | zero => rw [on_within_zero, bounded_one_node]
    | succ n =>
      have hand : NoDigit (g₄ ++ ("and".toList ++ (g₅ ++ (c ++ b)))) := noDigit_conjunction hg₄ _
      rw [on_within_succ, on_binary hg₂ hg₃, ihl n hand]
      -- After the left operand come the conjunction and the right one.
      apply bounded_node
      · intro el
        rw [on_conjoined hg₄ hg₅, ihr n hb]
      · intro el er
        rfl

end ArithTree.Phrase
