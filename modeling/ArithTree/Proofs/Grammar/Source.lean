import ArithTree.Grammar.Source
import ArithTree.Proofs.Grammar.Literal

/-!
# Reading whole texts

How the outcome of a parser decides what a whole text is read as: a success that leaves only blanks
is the value (`read_of_done`, `read_eq_ok`), nesting too deep is reported as such
(`read_of_tooDeep`), and whatever else goes wrong is a malformed text (`kind_of_read_eq_error`).

For a language `L` of texts with their trees, `Sound p L` says that the parser `p` takes only texts
of `L` off. Then a text that is read is one of `L` with blanks after it (`Sound.of_read_eq_ok`);
conversely such a text is read if all levels of an expression are left for it (`read_of_bounded`).
-/

namespace ArithTree.Parser

variable {α : Type} {p : Parser α} {style : Style} {cs : List Char} {a : α}

theorem on_endOfText (cs : List Char) :
    endOfText.on cs = if cs.isEmpty then .done () (.start cs) else .refused := by
  unfold on endOfText
  cases cs <;> rfl

theorem on_whole (p : Parser α) (cs : List Char) : p.whole.on cs =
    (p.on cs).andThen fun a rest =>
      if (rest.dropWhile isBlank).isEmpty then .done a (.start (rest.dropWhile isBlank))
      else .refused := by
  rw [whole, on_bind]
  congr 1
  funext a rest
  rw [on_bind, on_blanks, Outcome.done_andThen, on_bind, Cursor.rest_start, on_endOfText]
  split <;> rfl

/-- Only the outcome of the whole text decides between values and errors. -/
theorem read_eq (p : Parser α) (style : Style) (cs : List Char) :
    (∃ a next, p.whole.on cs = .done a next ∧ p.read style cs = .ok a) ∨
    (p.whole.on cs = .tooDeep ∧ p.read style cs = .error .tooDeep) ∨
    (p.whole.on cs = .refused ∧ ∃ place expected,
      p.read style cs = .error (.unreadable style place expected)) := by
  unfold on read
  rcases p.whole (.start cs) with ⟨⟨a, next⟩ | _ | _, frontier⟩
  · exact .inl ⟨a, next, rfl, rfl⟩
  · exact .inr (.inr ⟨rfl, _, _, rfl⟩)
  · exact .inr (.inl ⟨rfl, rfl⟩)

theorem read_of_done {w : List Char} (h : p.on cs = .done a (.start w)) (hw : Blanks w) :
    p.read style cs = .ok a := by
  have hwhole : p.whole.on cs = .done a (.start []) := by
    rw [on_whole, h, Outcome.done_andThen, Cursor.rest_start, hw.dropWhile]
    rfl
  rcases read_eq p style cs with ⟨a', next, ha, hr⟩ | ⟨ht, -⟩ | ⟨ht, -⟩
  · rw [hwhole] at ha
    cases ha
    exact hr
  · rw [hwhole] at ht
    cases ht
  · rw [hwhole] at ht
    cases ht

theorem read_of_tooDeep (h : p.on cs = .tooDeep) : p.read style cs = .error .tooDeep := by
  have hwhole : p.whole.on cs = .tooDeep := by rw [on_whole, h, Outcome.tooDeep_andThen]
  rcases read_eq p style cs with ⟨a, next, ha, -⟩ | ⟨-, hr⟩ | ⟨ht, -⟩
  · rw [hwhole] at ha
    cases ha
  · exact hr
  · rw [hwhole] at ht
    cases ht

theorem read_eq_ok (h : p.read style cs = .ok a) :
    ∃ next, p.on cs = .done a next ∧ Blanks next.rest := by
  rcases read_eq p style cs with ⟨a', next, ha, hr⟩ | ⟨-, hr⟩ | ⟨-, _, _, hr⟩ <;> rw [hr] at h <;>
    cases h
  rw [on_whole, Outcome.andThen_eq_done] at ha
  obtain ⟨_, m, hm, hend⟩ := ha
  split at hend
  · rename_i hblank
    cases hend
    refine ⟨m, hm, fun c hc => ?_⟩
    have hall := blanks_takeWhile m.rest
    rw [← List.takeWhile_append_dropWhile (p := isBlank) (l := m.rest),
      List.isEmpty_iff.1 hblank, List.append_nil] at hc
    exact hall c hc
  · cases hend

/-! ## Languages of trees -/

section
variable {q : Parser Expr} {t : Tree}

/-- What the parser takes off a text is in the language and denotes the expression it finds. -/
def Sound (p : Parser Expr) (L : List Char → Tree → Prop) : Prop :=
  ∀ cs e next, p.on cs = .done e next → ∃ a, cs = a ++ next.rest ∧ L a e.tree

theorem Sound.of_read_eq_ok {L : List Char → Tree → Prop} {e : Expr} (hq : Sound q L)
    (h : q.read style cs = .ok e) : ∃ a w, cs = a ++ w ∧ L a e.tree ∧ Blanks w := by
  obtain ⟨next, hdone, hw⟩ := read_eq_ok h
  obtain ⟨a, hcs, ha⟩ := hq cs e next hdone
  exact ⟨a, next.rest, hcs, ha, hw⟩

theorem read_of_bounded {n : Nat} {w : List Char} (h : q.on cs = .bounded n t w)
    (hn : maxDepth ≤ n) (hw : Blanks w) : q.read style cs = Expr.ofTree t := by
  by_cases ht : t.depth ≤ maxDepth
  · have hdone : q.on cs = .done ⟨t, ht⟩ (.start w) := h.trans (dif_pos ⟨ht, Nat.le_trans ht hn⟩)
    rw [read_of_done hdone hw, Expr.ofTree, dif_pos ht]
  · have hdeep : q.on cs = .tooDeep := h.trans (dif_neg fun h => ht h.1)
    rw [read_of_tooDeep hdeep, Expr.ofTree, dif_neg ht]

end

theorem kind_of_read_eq_error {err : Error} (h : p.read style cs = .error err) :
    err.kind = .malformed := by
  rcases read_eq p style cs with ⟨_, _, -, hr⟩ | ⟨-, hr⟩ | ⟨-, _, _, hr⟩ <;> rw [hr] at h <;>
    cases h <;> rfl

end ArithTree.Parser
