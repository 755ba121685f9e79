import ArithTree.Proofs.Form.Denotation

/-!
# The first fault of a form

Every form either denotes a tree or has a first fault: the first ill-shaped form that stands at the
place of an operand, in the order in which operands are looked at (`exists_form_or_firstFault`). A
form whose lists are nested `n` deep has its first fault on level `n + 1` at most, and there only a
bare atom (`FirstFault.eq_atom`). `toExprWithin` refuses a form for its first fault: for the fault's
own cause, or as too deep if the fault lies beyond the levels left (`toExprWithin_eq_error`).
-/

namespace ArithTree

namespace Form

/-! ## Nesting of lists -/

mutual

/-- How many lists are nested in a form. -/
def height : Form → Nat
  | .atom _ => 0
  | .list items => heightOfItems items + 1

/-- How many lists are nested in one of several forms. -/
def heightOfItems : List Form → Nat
  | [] => 0
  | item :: rest => max item.height (heightOfItems rest)

end

theorem heightOfItems_le_iff {n : Nat} {items : List Form} :
    heightOfItems items ≤ n ↔ ∀ f ∈ items, f.height ≤ n := by
  induction items with
  | nil => simp [heightOfItems]
  | cons f rest ih => rw [heightOfItems, Nat.max_le, ih, List.forall_mem_cons]

theorem height_list_le_iff {n : Nat} {items : List Form} :
    (list items).height ≤ n + 1 ↔ ∀ f ∈ items, f.height ≤ n := by
  rw [height, Nat.add_le_add_iff_right, heightOfItems_le_iff]

@[simp] theorem height_atom (a : Atom) : (atom a).height = 0 := rfl

@[simp] theorem height_operator (op : Op) (l r : Form) :
    (operator op l r).height = 1 + max l.height r.height := by
  simp [operator, height, heightOfItems, Nat.add_comm]

theorem height_eq_zero_iff {f : Form} : f.height = 0 ↔ ∃ a, f = .atom a := by
  cases f with
  | atom a => simp
  | list items => simp [height]

theorem height_form (t : Tree) : t.form.height = t.depth := by
  induction t with
  | lit v => rfl
  | node op l r ihl ihr => rw [Tree.form, height_operator, ihl, ihr, Tree.depth]

/-! ## First faults -/

/-- Looking at operands from the left, the first ill-shaped form in a form, with its level. -/
inductive FirstFault : Form → Nat → Form → Prop
  | here {f : Form} : f.fault? ≠ none → FirstFault f 1 f
  | left {op : Op} {l r g : Form} {level : Nat} :
    FirstFault l level g → FirstFault (operator op l r) (level + 1) g
  | right {op : Op} {t : Tree} {r g : Form} {level : Nat} :
    FirstFault r level g → FirstFault (operator op t.form r) (level + 1) g

variable {f g g' : Form} {level level' : Nat}

theorem firstFault_operator {op : Op} {l r : Form} (h : FirstFault (operator op l r) level g) :
    (∃ k, level = k + 1 ∧ FirstFault l k g) ∨
      ∃ t k, l = Tree.form t ∧ level = k + 1 ∧ FirstFault r k g := by
  generalize hf : operator op l r = f at h
  cases h with
  | here hfault => exact absurd (hf ▸ fault?_operator op l r) hfault
  | left h =>
    obtain ⟨-, rfl, -⟩ := operator_inj.1 hf
    exact .inl ⟨_, rfl, h⟩
  | right h =>
    obtain ⟨-, rfl, rfl⟩ := operator_inj.1 hf
    exact .inr ⟨_, _, rfl, rfl, h⟩

theorem not_firstFault_form (t : Tree) : ¬ FirstFault t.form level g := by
  induction t generalizing level with
  | lit v =>
    intro h
    generalize hf : Tree.form (.lit v) = f at h
    cases h with
    | here hfault => exact hfault (hf ▸ fault?_literal v)
    | left _ => exact literal_ne_operator hf
    | right _ => exact literal_ne_operator hf
  | node op l r ihl ihr =>
    intro h
    rcases firstFault_operator h with ⟨k, -, hl⟩ | ⟨t, k, -, -, hr⟩
    · exact ihl hl
    · exact ihr hr

theorem FirstFault.unique (h : FirstFault f level g) (h' : FirstFault f level' g') :
    level = level' ∧ g = g' := by
  induction h generalizing level' with
  | here hfault =>
    cases h' with
    | here _ => exact ⟨rfl, rfl⟩
    | left _ => exact absurd (fault?_operator _ _ _) hfault
    | right _ => exact absurd (fault?_operator _ _ _) hfault
  | left h ih =>
    rcases firstFault_operator h' with ⟨k, rfl, hl⟩ | ⟨t, k, rfl, -, -⟩
    · obtain ⟨rfl, rfl⟩ := ih hl
      exact ⟨rfl, rfl⟩
    · exact absurd h (not_firstFault_form t)
  | @right _ t _ _ _ _ ih =>
    rcases firstFault_operator h' with ⟨k, -, hl⟩ | ⟨_, k, -, rfl, hr⟩
    · exact absurd hl (not_firstFault_form t)
    · obtain ⟨rfl, rfl⟩ := ih hr
      exact ⟨rfl, rfl⟩

theorem FirstFault.fault?_ne_none (h : FirstFault f level g) : g.fault? ≠ none := by
  induction h with
  | here hfault => exact hfault
  | left _ ih => exact ih
  | right _ ih => exact ih

/-- Every form denotes a tree, or it has a first fault. -/
theorem exists_form_or_firstFault (f : Form) :
    (∃ t, f = Tree.form t) ∨ ∃ level g, FirstFault f level g := by
  -- Only the operands of an operator are visited, and these are nested less deep.
  induction hn : f.height using Nat.strongRecOn generalizing f with
  | ind n ih =>
    by_cases hfault : f.fault? = none
    · rcases fault?_eq_none_iff.1 hfault with ⟨v, rfl⟩ | ⟨op, l, r, rfl⟩
      · exact .inl ⟨.lit v, rfl⟩
      · rw [height_operator] at hn
        rcases ih l.height (by omega) l rfl with ⟨tl, rfl⟩ | ⟨level, g, hl⟩
        · rcases ih r.height (by omega) r rfl with ⟨tr, rfl⟩ | ⟨level, g, hr⟩
          · exact .inl ⟨.node op tl tr, rfl⟩
          · exact .inr ⟨_, _, .right hr⟩
        · exact .inr ⟨_, _, .left hl⟩
    · exact .inr ⟨_, _, .here hfault⟩

theorem FirstFault.level_le (h : FirstFault f level g) : level + g.height ≤ f.height + 1 := by
  induction h with
  | here _ => omega
  | left _ ih => rw [height_operator]; omega
  | right _ ih => rw [height_operator]; omega

/-- No list is a fault beyond the nesting of the lists. -/
theorem FirstFault.eq_atom {n : Nat} (h : FirstFault f level g) (hf : f.height ≤ n)
    (hlevel : n < level) : level = n + 1 ∧ ∃ a, g = .atom a := by
  have := h.level_le
  exact ⟨by omega, height_eq_zero_iff.1 (by omega)⟩

/-! ## The refusal -/

section
variable {n : Nat} {e : Expr} {err : Error}

theorem exists_toExprWithin_error (hg : g.fault? ≠ none) (n : Nat) :
    ∃ err, toExprWithin n g = .error err := by
  cases n with
  | zero => exact ⟨.tooDeep, by rw [toExprWithin]⟩
  | succ n =>
    obtain ⟨err, herr⟩ := Option.ne_none_iff_exists'.1 hg
    exact ⟨err, toExprWithin_fault n herr⟩

/-- A form is refused as its first fault is, with the levels that are left for the fault. -/
theorem FirstFault.toExprWithin_eq (h : FirstFault f level g) (hf : f.height ≤ n)
    (hn : n ≤ maxDepth) : toExprWithin n f = toExprWithin (n + 1 - level) g := by
  induction h generalizing n with
  | here _ => rfl
  | @left op l r g level h ih =>
    rw [height_operator] at hf
    obtain ⟨m, rfl⟩ : ∃ m, n = m + 1 := ⟨n - 1, by omega⟩
    obtain ⟨err, herr⟩ := exists_toExprWithin_error h.fault?_ne_none (m + 1 - level)
    rw [toExprWithin_operator, ih (by omega) (by omega), Nat.add_sub_add_right, herr]
    rfl
  | @right op t r g level h ih =>
    rw [height_operator, height_form] at hf
    obtain ⟨m, rfl⟩ : ∃ m, n = m + 1 := ⟨n - 1, by omega⟩
    obtain ⟨err, herr⟩ := exists_toExprWithin_error h.fault?_ne_none (m + 1 - level)
    rw [toExprWithin_operator, toExprWithin_form (by omega) (by omega), ih (by omega) (by omega),
      Nat.add_sub_add_right, herr]
    rfl

theorem FirstFault.toExprWithin_eq_error (h : FirstFault f level g) (hf : f.height ≤ n)
    (hn : n ≤ maxDepth) : toExprWithin n f = .error err ↔
      level ≤ n ∧ g.fault? = some err ∨ n < level ∧ err = .tooDeep := by
  rw [h.toExprWithin_eq hf hn]
  by_cases hlevel : level ≤ n
  · obtain ⟨k, hk⟩ : ∃ k, n + 1 - level = k + 1 := ⟨n - level, by omega⟩
    obtain ⟨cause, hcause⟩ := Option.ne_none_iff_exists'.1 h.fault?_ne_none
    simp [hk, toExprWithin_fault k hcause, hcause, hlevel, Nat.not_lt.2 hlevel]
  · have hk : n + 1 - level = 0 := by omega
    simp [hk, toExprWithin, hlevel, Nat.lt_of_not_le hlevel, eq_comm]

theorem toExprWithin_eq_ok (hf : f.height ≤ n) (hn : n ≤ maxDepth) :
    toExprWithin n f = .ok e ↔ f = e.tree.form := by
  refine ⟨fun h => (eq_form_of_toExprWithin h).1, ?_⟩
  rintro rfl
  exact toExprWithin_form (height_form e.tree ▸ hf) hn

theorem toExprWithin_eq_error (hf : f.height ≤ n) (hn : n ≤ maxDepth) :
    toExprWithin n f = .error err ↔ ∃ level g, FirstFault f level g ∧
      (level ≤ n ∧ g.fault? = some err ∨ n < level ∧ err = .tooDeep) := by
  constructor
  · intro h
    rcases exists_form_or_firstFault f with ⟨t, rfl⟩ | ⟨level, g, hfault⟩
    · rw [toExprWithin_form (height_form t ▸ hf) hn] at h
      cases h
    · exact ⟨level, g, hfault, (hfault.toExprWithin_eq_error hf hn).1 h⟩
  · rintro ⟨level, g, hfault, h⟩
    exact (hfault.toExprWithin_eq_error hf hn).2 h

end

end Form

end ArithTree
