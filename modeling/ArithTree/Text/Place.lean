import ArithTree.Error

/-!
# Places

The line and column that a text leads to: one more than the line breaks in it, and one more than
the characters after the last of them.
-/

namespace ArithTree.Place

/-- The place right after a text. -/
def after (cs : List Char) : Place where
  line := cs.count '\n' + 1
  column := (cs.reverse.takeWhile (· != '\n')).length + 1

@[simp] theorem after_nil : after [] = ⟨1, 1⟩ := rfl

theorem after_append_newline (cs : List Char) :
    after (cs ++ ['\n']) = ⟨(after cs).line + 1, 1⟩ := by
  simp [after]

theorem after_append_of_ne {c : Char} (h : c ≠ '\n') (cs : List Char) :
    after (cs ++ [c]) = ⟨(after cs).line, (after cs).column + 1⟩ := by
  simp [after, h]

end ArithTree.Place
