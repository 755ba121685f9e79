import ArithTree.Grammar.Call
import ArithTree.Proofs.Grammar.Literal

/-!
# The language of calls

What a constructor call is and which tree it denotes, without regard to any parser, and what the
parser does with a text that starts with one.

* `Derives cs t`: the text `cs` is a call and denotes `t`; blanks may stand before every word,
  literal, comma and parenthesis.
* `Denotes cs t`: `cs` is a call with blanks after it.
* `Derives.on_either`: with `n` operand lists left to open, a call is taken off the text as its tree,
  unless the tree has more than `n + 1` levels or more than an expression. A call ends with its own
  parenthesis, so the statement holds whatever comes after it.
-/

namespace ArithTree.Call

open ArithTree.Parser

/-- The text `cs` is a call and denotes the tree `t`. -/
inductive Derives : List Char → Tree → Prop
  | number {w₁ w₂ w₃ cs : List Char} {v : Int64} (before : Blanks w₁) (opening : Blanks w₂)
      (spells : Spells cs v) (closing : Blanks w₃) :
      Derives (w₁ ++ ("Number".toList ++ (w₂ ++ ("(".toList ++ (cs ++ (w₃ ++ ")".toList))))))
        (.lit v)
  | operator {op : Op} {w₁ w₂ w₃ w₄ a b : List Char} {l r : Tree} (before : Blanks w₁)
      (opening : Blanks w₂) (left : Derives a l) (comma : Blanks w₃) (right : Derives b r)
      (closing : Blanks w₄) :
      Derives (w₁ ++ (op.constructorName.toList ++ (w₂ ++ ("(".toList ++ (a ++ (w₃ ++
        (",".toList ++ (b ++ (w₄ ++ ")".toList))))))))) (.node op l r)

/-- The whole text `cs` denotes the tree `t`. -/
def Denotes (cs : List Char) (t : Tree) : Prop :=
  ∃ a w, cs = a ++ w ∧ Derives a t ∧ Blanks w

/-! ## Constructor names -/

variable {op : Op} {e : Expr} {inner : Parser (Expr × Expr)} {v w w' cs : List Char}

theorem isSolid_constructorName (op : Op) : isSolid op.constructorName := by
  cases op <;> rfl

/-- No constructor name starts with another one. -/
theorem constructorName_prefix {op' : Op}
    (h : op'.constructorName.toList <+: op.constructorName.toList ++ cs) : op' = op := by
  obtain ⟨rest, h⟩ := h
  cases op <;> cases op' <;> first | rfl | simp [Op.constructorName] at h

theorem number_not_prefix : ¬ "Number".toList <+: op.constructorName.toList ++ cs := by
  rintro ⟨rest, h⟩
  cases op <;> simp [Op.constructorName] at h

theorem on_name (op : Op) (cs : List Char) :
    name.on (op.constructorName.toList ++ cs) = .done op (.start cs) :=
  on_oneOf_word op.mem_all fun _ _ => constructorName_prefix

/-! ## Calls taken off a text -/

theorem on_either_number {x : Int64} (hv : Blanks v) (hw : Blanks w) (hcs : Spells cs x)
    (hw' : Blanks w') (b : List Char) :
    (either inner).on (v ++ ("Number".toList ++ (w ++ ("(".toList ++ (cs ++ (w' ++
      (")".toList ++ b))))))) = .done (.number x) (.start b) := by
  have hend : NoDigit (w' ++ (")".toList ++ b)) :=
    .blanks_append hw' (by rintro _ ⟨⟩; decide)
  rw [either, on_orElse, number, on_blanks_word rfl hv, on_blanks_word rfl hw, on_bind,
    on_literal_append hcs hend, Outcome.done_andThen, Cursor.rest_start, on_blanks_word rfl hw',
    on_pure, Outcome.done_orElse]

theorem on_either_operator (hv : Blanks v) (hw : Blanks w) (cs : List Char) :
    (either inner).on (v ++ (op.constructorName.toList ++ (w ++ ("(".toList ++ cs)))) =
      (inner.on cs).andThen fun args rest =>
        (do blanks; word ")"; combine op args.1 args.2 : Parser Expr).on rest := by
  have hdrop := hv.dropWhile_append_solid (isSolid_constructorName op) (w ++ ("(".toList ++ cs))
  have hnumber : number.on (v ++ (op.constructorName.toList ++ (w ++ ("(".toList ++ cs)))) =
      .refused :=
    on_blanks_word_of_mismatch (by rw [hdrop]; exact number_not_prefix) _
  rw [either, on_orElse, hnumber, Outcome.refused_orElse, operator, on_bind, on_blanks,
    Outcome.done_andThen, Cursor.rest_start, hdrop, on_bind, on_name, Outcome.done_andThen,
    Cursor.rest_start, on_blanks_word rfl hw, on_bind]

/-- **Derived calls are read.** -/
theorem Derives.on_either {a : List Char} {t : Tree} (h : Derives a t) (n : Nat) (b : List Char) :
    (either (within .call operands n)).on (a ++ b) = .bounded (n + 1) t b := by
  induction h generalizing n b with
  | number hv hw hcs hw' =>
    simp only [List.append_assoc]
    rw [on_either_number hv hw hcs hw', bounded_lit]
  | @operator op _ _ w₃ w₄ _ br l r hv hw _ hw₃ _ hw₄ ihl ihr =>
    simp only [List.append_assoc]
    rw [on_either_operator hv hw]
    cases n with
    | zero => rw [on_within_zero, Outcome.tooDeep_andThen, bounded_one_node]
    | succ n =>
      rw [on_within_succ, operands, on_bind, Outcome.andThen_assoc, ihl]
      -- After the left operand come the comma and the right one, then the parenthesis.
      apply bounded_node
      · intro el
        rw [on_blanks_word rfl hw₃, on_bind, ihr, Outcome.andThen_assoc]
      · intro el er
        rw [on_pure, Outcome.done_andThen, Cursor.rest_start, on_blanks_word rfl hw₄]

end ArithTree.Call
