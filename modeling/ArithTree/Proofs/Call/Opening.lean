import ArithTree.Proofs.Call.Language

/-!
# Open calls

`Opens n u`: the text `u` starts a call and ends right behind the parenthesis that opens the operands
of the last of `n` operators. Such a text is the start of a call (`Opens.exists_derives`), and every
start of a call that ends in this way is one (`Derives.exists_opens`). If more operand lists are open
than are left to open, the parser gives up there, whatever follows (`Opens.on_either`).
-/

namespace ArithTree.Call

open ArithTree.Parser

/-- The text `u` starts a call and has just opened the operands of the last of `n` operators. -/
inductive Opens : Nat → List Char → Prop
  | operator {op : Op} {w₁ w₂ : List Char} (before : Blanks w₁) (opening : Blanks w₂) :
      Opens 1 (w₁ ++ (op.constructorName.toList ++ (w₂ ++ ['('])))
  | left {n : Nat} {op : Op} {w₁ w₂ u : List Char} (before : Blanks w₁) (opening : Blanks w₂)
      (inside : Opens n u) :
      Opens (n + 1) (w₁ ++ (op.constructorName.toList ++ (w₂ ++ ("(".toList ++ u))))
  | right {n : Nat} {op : Op} {w₁ w₂ w₃ a u : List Char} {l : Tree} (before : Blanks w₁)
      (opening : Blanks w₂) (left : Derives a l) (comma : Blanks w₃) (inside : Opens n u) :
      Opens (n + 1) (w₁ ++ (op.constructorName.toList ++ (w₂ ++ ("(".toList ++ (a ++ (w₃ ++
        (",".toList ++ u)))))))

variable {n m : Nat} {op : Op} {u v w : List Char} {t : Tree}

/-! ## Starts of calls -/

/-- What is open can be closed. -/
theorem Opens.exists_derives (h : Opens n u) : ∃ v t, Derives (u ++ v) t := by
  -- anything can stand for an operand that is missing, so a literal does
  have hlit : Derives "Number(1)".toList (.lit 1) :=
    .number .nil .nil ⟨[], false, ['1'], rfl, .nil, rfl, rfl⟩ .nil
  induction h with
  | @operator op w₁ w₂ hw₁ hw₂ =>
    refine ⟨"Number(1),Number(1))".toList, .node op (.lit 1) (.lit 1), ?_⟩
    have hnode : Derives _ (.node op (.lit 1) (.lit 1)) := .operator hw₁ hw₂ hlit .nil hlit .nil
    simpa using hnode
  | @left n op w₁ w₂ u hw₁ hw₂ _ ih =>
    obtain ⟨v, l, hl⟩ := ih
    refine ⟨v ++ ",Number(1))".toList, .node op l (.lit 1), ?_⟩
    have hnode : Derives _ (.node op l (.lit 1)) := .operator hw₁ hw₂ hl .nil hlit .nil
    simpa using hnode
  | @right n op w₁ w₂ w₃ a u l hw₁ hw₂ hl hw₃ _ ih =>
    obtain ⟨v, r, hr⟩ := ih
    refine ⟨v ++ [')'], .node op l r, ?_⟩
    have hnode : Derives _ (.node op l r) := .operator hw₁ hw₂ hl hw₃ hr .nil
    simpa using hnode

theorem opening_not_mem_spells {cs : List Char} {x : Int64} (h : Spells cs x) : '(' ∉ cs := by
  intro hmem
  exact absurd (h.mem hmem) (by decide)

theorem opening_not_mem_name (hw : Blanks w) (hv : Blanks v) :
    '(' ∉ w ++ (op.constructorName.toList ++ v) := by
  have hname : '(' ∉ op.constructorName.toList := by cases op <;> decide
  simp only [List.mem_append, not_or]
  exact ⟨hw.not_mem rfl, hname, hv.not_mem rfl⟩

/-- Every opening parenthesis of a call opens the operands of an operator, or follows the name of a
literal. -/
theorem Derives.exists_opens (h : Derives (u ++ '(' :: v) t) :
    (∃ n, Opens n (u ++ ['('])) ∨ ∃ p w, Blanks w ∧ u = p ++ ("Number".toList ++ w) := by
  generalize hs : u ++ '(' :: v = s at h
  induction h generalizing u v with
  | @number w₁ w₂ w₃ cs x hw₁ hw₂ hcs hw₃ =>
    have hbefore : '(' ∉ w₁ ++ ("Number".toList ++ w₂) := by
      simp only [List.mem_append, not_or]
      exact ⟨hw₁.not_mem rfl, by decide, hw₂.not_mem rfl⟩
    have hinside : '(' ∉ cs ++ (w₃ ++ [')']) := by
      simp only [List.mem_append, not_or]
      exact ⟨opening_not_mem_spells hcs, hw₃.not_mem rfl, by decide⟩
    have hsplit : (w₁ ++ ("Number".toList ++ w₂)) ++ '(' :: (cs ++ (w₃ ++ [')'])) = u ++ '(' :: v := by
      rw [hs]
      simp
    rcases append_cons_eq_append_cons hbefore hsplit with rfl | ⟨p, -, hp⟩
    · exact .inr ⟨w₁, w₂, hw₂, rfl⟩
    · exact absurd (hp ▸ by simp) hinside
  | @operator op w₁ w₂ w₃ w₄ a b l r hw₁ hw₂ hl hw₃ _ hw₄ ihl ihr =>
    have hcomma : '(' ∉ w₃ ++ [','] := by
      simp only [List.mem_append, not_or]
      exact ⟨hw₃.not_mem rfl, by decide⟩
    have hclosing : '(' ∉ w₄ ++ [')'] := by
      simp only [List.mem_append, not_or]
      exact ⟨hw₄.not_mem rfl, by decide⟩
    have hsplit : (w₁ ++ (op.constructorName.toList ++ w₂)) ++ '(' ::
        (a ++ ((w₃ ++ [',']) ++ (b ++ (w₄ ++ [')'])))) = u ++ '(' :: v := by
      rw [hs]
      simp
    rcases append_cons_eq_append_cons (opening_not_mem_name hw₁ hw₂) hsplit with
      rfl | ⟨p, rfl, hp⟩
    · refine .inl ⟨1, ?_⟩
      have hopen : Opens 1 (w₁ ++ (op.constructorName.toList ++ _)) := .operator hw₁ hw₂
      simpa using hopen
    rcases append_eq_append_cons hp with ⟨z, ha⟩ | ⟨q, rfl, hq⟩
    · rcases ihl ha.symm with ⟨n, hn⟩ | ⟨p', w, hw, rfl⟩
      · refine .inl ⟨n + 1, ?_⟩
        have hopen : Opens _ (w₁ ++ (op.constructorName.toList ++ _)) := .left hw₁ hw₂ hn
        simpa using hopen
      · refine .inr ⟨w₁ ++ (op.constructorName.toList ++ w₂) ++ '(' :: p', w, hw, ?_⟩
        simp
    · obtain ⟨q', rfl, hq'⟩ := append_eq_append_cons_of_not_mem hcomma hq
      rcases append_eq_append_cons hq' with ⟨z, hb⟩ | ⟨_, -, hend⟩
      · rcases ihr hb.symm with ⟨n, hn⟩ | ⟨p', w, hw, rfl⟩
        · refine .inl ⟨n + 1, ?_⟩
          have hopen : Opens _ (w₁ ++ (op.constructorName.toList ++ _)) :=
            .right hw₁ hw₂ hl hw₃ hn
          simpa using hopen
        · refine .inr ⟨w₁ ++ (op.constructorName.toList ++ w₂) ++ '(' ::
            (a ++ ((w₃ ++ [',']) ++ p')), w, hw, ?_⟩
          simp
      · exact absurd (hend ▸ by simp) hclosing

theorem Opens.ends (h : Opens n u) : ∃ (p : List Char) (op : Op) (w : List Char),
    Blanks w ∧ u = p ++ (op.constructorName.toList ++ (w ++ ['('])) := by
  induction h with
  | @operator op w₁ w₂ _ hw₂ => exact ⟨w₁, op, w₂, hw₂, rfl⟩
  | @left n op w₁ w₂ u _ _ _ ih =>
    obtain ⟨p, op', w, hw, rfl⟩ := ih
    refine ⟨w₁ ++ (op.constructorName.toList ++ (w₂ ++ ("(".toList ++ p))), op', w, hw, ?_⟩
    simp only [List.append_assoc]
  | @right n op w₁ w₂ w₃ a u l _ _ _ _ _ ih =>
    obtain ⟨p, op', w, hw, rfl⟩ := ih
    refine ⟨w₁ ++ (op.constructorName.toList ++ (w₂ ++ ("(".toList ++ (a ++ (w₃ ++
      (",".toList ++ p)))))), op', w, hw, ?_⟩
    simp only [List.append_assoc]

/-! ## Openings that are too deep -/

theorem Opens.on_either (h : Opens n u) (hm : m < n) (v : List Char) :
    (either (within .call operands m)).on (u ++ v) = .tooDeep := by
  induction h generalizing m v with
  | @operator op w₁ w₂ hw₁ hw₂ =>
    obtain rfl : m = 0 := by omega
    have hassoc : w₁ ++ (op.constructorName.toList ++ (w₂ ++ ['('])) ++ v =
        w₁ ++ (op.constructorName.toList ++ (w₂ ++ ("(".toList ++ v))) := by simp
    rw [hassoc, on_either_operator hw₁ hw₂, on_within_zero, Outcome.tooDeep_andThen]
  | @left n op w₁ w₂ u hw₁ hw₂ _ ih =>
    simp only [List.append_assoc]
    rw [on_either_operator hw₁ hw₂]
    cases m with
    | zero => rw [on_within_zero, Outcome.tooDeep_andThen]
    | succ m =>
      rw [on_within_succ, operands, on_bind, ih (by omega), Outcome.tooDeep_andThen,
        Outcome.tooDeep_andThen]
  | @right n op w₁ w₂ w₃ a u l hw₁ hw₂ hl hw₃ _ ih =>
    simp only [List.append_assoc]
    rw [on_either_operator hw₁ hw₂]
    cases m with
    | zero => rw [on_within_zero, Outcome.tooDeep_andThen]
    | succ m =>
      rw [on_within_succ, operands, on_bind, hl.on_either, bounded_andThen_tooDeep,
        Outcome.tooDeep_andThen]
      intro el
      rw [on_blanks_word rfl hw₃, on_bind, ih (by omega), Outcome.tooDeep_andThen]

end ArithTree.Call
