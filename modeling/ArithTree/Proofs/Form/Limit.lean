import ArithTree.Proofs.Form.Fault

/-!
# Two limits on forms

The reader counts open lists and the denotation counts operands, both against `maxDepth`. `Fits`
says that every open list has room for its items; every token keeps it (`Fits.word`,
`Fits.opening`, `Fits.closing`), so a form that is read has at most `maxDepth` nested lists
(`height_le_of_read`). Then no list is ever beyond the second limit, but an atom in the innermost
list can be.
-/

namespace ArithTree

namespace Form

/-! ## Forms that were read -/

/-- The items of every open list, the innermost list first, leave room for the lists around. -/
def Fits : List (List Form) → Prop
  | [] => True
  | items :: outer => outer.length < maxDepth ∧ (∀ f ∈ items, f.height + outer.length < maxDepth) ∧
    Fits outer

section
variable {items : List Form} {outer : List (List Form)}

theorem Fits.item {f : Form} (h : Fits (items :: outer)) (hf : f.height + outer.length < maxDepth) :
    Fits ((f :: items) :: outer) := by
  obtain ⟨hlen, hitems, houter⟩ := h
  exact ⟨hlen, List.forall_mem_cons.2 ⟨hf, hitems⟩, houter⟩

theorem Fits.word (h : Fits (items :: outer)) (a : Atom) : Fits ((.atom a :: items) :: outer) :=
  h.item (by rw [height_atom, Nat.zero_add]; exact h.1)

theorem Fits.opening (h : Fits (items :: outer)) (hlen : outer.length + 1 < maxDepth) :
    Fits ([] :: items :: outer) :=
  ⟨hlen, by simp, h⟩

theorem Fits.height_closed (h : Fits (items :: outer)) :
    (list items.reverse).height + outer.length ≤ maxDepth := by
  obtain ⟨hlen, hitems, -⟩ := h
  obtain ⟨n, hn⟩ : ∃ n, maxDepth = n + 1 + outer.length := ⟨maxDepth - outer.length - 1, by omega⟩
  rw [hn, Nat.add_le_add_iff_right, height_list_le_iff]
  intro f hf
  have := hitems f (List.mem_reverse.1 hf)
  omega

theorem Fits.closing {next : List Form} (h : Fits (items :: next :: outer)) :
    Fits ((list items.reverse :: next) :: outer) :=
  h.2.2.item (by have := h.height_closed; rw [List.length_cons] at this; omega)

theorem height_le_of_readOpen {tokens : List Token} {reading : Reading} {used : Nat}
    (hfits : Fits (items :: outer)) (h : readOpen items outer used tokens = .ok reading) :
    reading.form.height ≤ maxDepth := by
  induction tokens generalizing items outer used with
  | nil => cases h
  | cons token tokens ih =>
    cases token with
    | opening =>
      rw [readOpen] at h
      split at h
      · rename_i hlen
        exact ih (hfits.opening hlen) h
      · cases h
    | closing =>
      cases outer with
      | nil =>
        rw [readOpen] at h
        rw [← Except.ok.inj h]
        exact hfits.height_closed
      | cons next outer => exact ih hfits.closing h
    | word w => exact ih (hfits.word _) h

end

theorem height_le_of_read {tokens : List Token} {reading : Reading}
    (h : read tokens = .ok reading) : reading.form.height ≤ maxDepth := by
  cases tokens with
  | nil => cases h
  | cons token tokens =>
    cases token with
    | opening =>
      have hfits : Fits [[]] := ⟨by decide, by simp, trivial⟩
      exact height_le_of_readOpen hfits h
    | closing => cases h
    | word w =>
      rw [← Except.ok.inj h]
      exact Nat.zero_le _

/-! ## The denotation of forms that were read -/

theorem fault?_ne_tooDeep (f : Form) : f.fault? ≠ some .tooDeep := by
  unfold fault?
  split
  · simp
  · simp
  · dsimp only
    split
    · split
      · split <;> simp
      · split <;> simp
    · simp

/-- **The limits meet but for atoms.** A form that was read denotes an expression if it is the form
of the expression's tree, and is refused otherwise. The cause is that of its first fault, by the
fault's shape alone. The only exception is a bare atom on the level after `maxDepth`: it is refused
as too deep, and nothing else is. -/
theorem toExpr_of_read {tokens : List Token} {reading : Reading} (h : read tokens = .ok reading) :
    (∀ e, reading.form.toExpr = .ok e ↔ reading.form = e.tree.form) ∧
    (∀ err, reading.form.toExpr = .error err ↔ ∃ level g, FirstFault reading.form level g ∧
      (level ≤ maxDepth ∧ g.fault? = some err ∨
        level = maxDepth + 1 ∧ (∃ a, g = .atom a) ∧ err = .tooDeep)) ∧
    (reading.form.toExpr = .error .tooDeep ↔
      ∃ a, FirstFault reading.form (maxDepth + 1) (.atom a)) := by
  have hheight := height_le_of_read h
  have herror err : reading.form.toExpr = .error err ↔ ∃ level g,
      FirstFault reading.form level g ∧ (level ≤ maxDepth ∧ g.fault? = some err ∨
        level = maxDepth + 1 ∧ (∃ a, g = .atom a) ∧ err = .tooDeep) := by
    refine (toExprWithin_eq_error hheight (Nat.le_refl _)).trans
      (exists_congr fun level => exists_congr fun g => and_congr_right fun hfault =>
        or_congr_right ⟨fun ⟨hlevel, herr⟩ => ?_, fun ⟨hlevel, _, herr⟩ => ⟨by omega, herr⟩⟩)
    obtain ⟨hlast, hatom⟩ := hfault.eq_atom hheight hlevel
    exact ⟨hlast, hatom, herr⟩
  refine ⟨fun e => toExprWithin_eq_ok hheight (Nat.le_refl _), herror, ?_⟩
  rw [herror]
  constructor
  · rintro ⟨level, g, hfault, ⟨-, hdeep⟩ | ⟨rfl, ⟨a, rfl⟩, -⟩⟩
    · exact absurd hdeep (fault?_ne_tooDeep g)
    · exact ⟨a, hfault⟩
  · rintro ⟨a, hfault⟩
    exact ⟨maxDepth + 1, .atom a, hfault, .inr ⟨rfl, ⟨a, rfl⟩, rfl⟩⟩

theorem toExpr_of_read_atom_operand :
    read [.opening, .word "add", .word "x", .word "y", .closing] =
        .ok ⟨operator .add (.atom (.symbol "x")) (.atom (.symbol "y")), 5⟩ ∧
      (operator .add (.atom (.symbol "x")) (.atom (.symbol "y"))).toExpr =
        .error (.notForm "x") := by
  have h : read [.opening, .word "add", .word "x", .word "y", .closing] =
      .ok ⟨operator .add (.atom (.symbol "x")) (.atom (.symbol "y")), 5⟩ := rfl
  exact ⟨h, ((toExpr_of_read h).2.1 _).2 ⟨2, .atom (.symbol "x"), .left (.here (by simp [fault?])),
    .inl ⟨by decide, rfl⟩⟩⟩

set_option maxRecDepth 8000 in
/-- Lists nested `maxDepth` deep are read, but the atom in the innermost one is too deep. -/
theorem exists_read_toExpr_tooDeep :
    ∃ reading, read ((List.replicate 100 [.opening, .word "add"]).flatten ++
        .word "x" :: (List.replicate 100 [.word "x", .closing]).flatten) = .ok reading ∧
      reading.form.toExpr = .error .tooDeep :=
  ⟨_, rfl, rfl⟩

end Form

end ArithTree
