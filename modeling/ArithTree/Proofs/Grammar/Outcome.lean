import ArithTree.Grammar.Parser

/-!
# Outcomes of parsers

What a parser does with a text, its frontier aside. `p.on cs` is the outcome of `p` where the
characters `cs` are left, and every combinator has an equation or an equivalence for it:

* `on_bind`, `on_orElse`, `on_within_succ`: outcomes of composed parsers from those of their parts;
  `on_bind_eq_done` is the form that takes a success apart.
* `on_word_append`, `on_word_eq_done`: a word succeeds on the texts that start with it.
* `on_oneOf_word`, `on_oneOf_word_eq_done`: the choice between several words.
* `Outcome.bounded`, `bounded_node`: the outcome for a tree with so many levels left for it, and how
  that of an operator comes from those of its operands.
* `chain_of_done`, `chain_of_refused`, `chain_of_tooDeep`: one more round of a chain;
  `chain_induction`: whatever each successful step keeps holds where the chain ends.
-/

namespace ArithTree

variable {α β : Type}

namespace Outcome

/-- Goes on after a success. -/
def andThen (o : Outcome α) (f : α → List Char → Outcome β) : Outcome β :=
  match o with
  | .done a next => f a next.rest
  | .refused => .refused
  | .tooDeep => .tooDeep

/-- Goes on after a refusal. -/
def orElse (o other : Outcome α) : Outcome α :=
  match o with
  | .refused => other
  | o => o

@[simp] theorem done_andThen (a : α) (c : Cursor) (f : α → List Char → Outcome β) :
    (done a c).andThen f = f a c.rest := rfl

@[simp] theorem refused_andThen (f : α → List Char → Outcome β) :
    (refused : Outcome α).andThen f = .refused := rfl

@[simp] theorem tooDeep_andThen (f : α → List Char → Outcome β) :
    (tooDeep : Outcome α).andThen f = .tooDeep := rfl

@[simp] theorem done_orElse (a : α) (c : Cursor) (o : Outcome α) :
    (done a c).orElse o = .done a c := rfl

@[simp] theorem refused_orElse (o : Outcome α) : refused.orElse o = o := rfl

@[simp] theorem tooDeep_orElse (o : Outcome α) : tooDeep.orElse o = .tooDeep := rfl

@[simp] theorem orElse_refused (o : Outcome α) : o.orElse .refused = o := by
  cases o <;> rfl

theorem andThen_assoc {γ : Type} (o : Outcome α) (f : α → List Char → Outcome β)
    (g : β → List Char → Outcome γ) :
    (o.andThen f).andThen g = o.andThen fun a rest => (f a rest).andThen g := by
  cases o <;> rfl

/-- The outcome for a text that denotes `t`, with `n` levels left for the tree and `cs` after it. -/
def bounded (n : Nat) (t : Tree) (cs : List Char) : Outcome Expr :=
  if h : t.depth ≤ maxDepth ∧ t.depth ≤ n then .done ⟨t, h.1⟩ (.start cs) else .tooDeep

theorem andThen_eq_done {o : Outcome α} {f : α → List Char → Outcome β} {b : β} {next : Cursor} :
    o.andThen f = .done b next ↔
      ∃ a middle, o = .done a middle ∧ f a middle.rest = .done b next := by
  cases o with
  | done a c =>
    refine ⟨fun h => ⟨a, c, rfl, h⟩, fun ⟨_, _, hac, h⟩ => ?_⟩
    cases hac
    exact h
  | refused => simp
  | tooDeep => simp

theorem orElse_eq_done {o other : Outcome α} {a : α} {next : Cursor} :
    o.orElse other = .done a next ↔ o = .done a next ∨ o = .refused ∧ other = .done a next := by
  cases o <;> simp

end Outcome

namespace Parser

/-- The outcome of a parser where the characters `cs` are left. -/
def on (p : Parser α) (cs : List Char) : Outcome α := (p (.start cs)).outcome

/-! ## Composed parsers -/

@[simp] theorem on_pure (a : α) (cs : List Char) :
    (pure a : Parser α).on cs = .done a (.start cs) := rfl

@[simp] theorem on_bind (p : Parser α) (f : α → Parser β) (cs : List Char) :
    (p >>= f).on cs = (p.on cs).andThen fun a rest => (f a).on rest := by
  unfold on
  rw [bind_apply]
  rcases p (.start cs) with ⟨_ | _ | _, _⟩ <;> simp

theorem on_bind_eq_done {p : Parser α} {f : α → Parser β} {cs : List Char} {b : β}
    {next : Cursor} : (p >>= f).on cs = .done b next ↔
      ∃ a middle, p.on cs = .done a middle ∧ (f a).on middle.rest = .done b next := by
  rw [on_bind, Outcome.andThen_eq_done]

@[simp] theorem on_orElse (p q : Parser α) (cs : List Char) :
    (orElse p q).on cs = (p.on cs).orElse (q.on cs) := by
  unfold on orElse
  rcases p (.start cs) with ⟨_ | _ | _, _⟩ <;> rfl

@[simp] theorem on_refuse (cs : List Char) : (refuse : Parser α).on cs = .refused := rfl

@[simp] theorem on_expected (e : Expected) (cs : List Char) :
    (expected e : Parser α).on cs = .refused := rfl

@[simp] theorem on_tooDeep (cs : List Char) : (tooDeep : Parser α).on cs = .tooDeep := rfl

@[simp] theorem oneOf_nil : oneOf ([] : List (Parser α)) = refuse := rfl

@[simp] theorem oneOf_cons (p : Parser α) (ps : List (Parser α)) :
    oneOf (p :: ps) = orElse p (oneOf ps) := rfl

@[simp] theorem on_within_zero (style : Style) (body : Parser α → Parser α) (cs : List Char) :
    (within style body 0).on cs = .tooDeep := rfl

@[simp] theorem on_within_succ (style : Style) (body : Parser α → Parser α) (n : Nat)
    (cs : List Char) :
    (within style body (n + 1)).on cs = (body (within style body n)).on cs := by
  simp [within]

/-! ## Operators within the depth of an expression -/

section
variable {op : Op} {l r e : Expr} {cs : List Char}

theorem on_combine (he : e.tree = .node op l.tree r.tree) :
    (combine op l r).on cs = .done e (.start cs) := by
  rw [combine, Expr.combine_eq_ok.2 he, on_pure]

theorem on_combine_of_lt (h : maxDepth < 1 + max l.depth r.depth) :
    (combine op l r).on cs = .tooDeep := by
  rw [combine, Expr.combine_eq_error.2 ⟨h, rfl⟩, on_tooDeep]

theorem on_combine_eq_done {next : Cursor} :
    (combine op l r).on cs = .done e next ↔ e.tree = .node op l.tree r.tree ∧ next = .start cs := by
  refine ⟨fun h => ?_, fun ⟨he, hn⟩ => by rw [on_combine he, hn]⟩
  unfold combine at h
  split at h
  · rename_i hc
    cases h
    exact ⟨Expr.combine_eq_ok.1 hc, rfl⟩
  · cases h

end

/-! ## Trees within the levels left -/

section
variable {n : Nat} {op : Op} {l r : Tree}

@[simp] theorem bounded_lit (n : Nat) (v : Int64) (cs : List Char) :
    Outcome.bounded (n + 1) (.lit v) cs = .done (.number v) (.start cs) :=
  dif_pos ⟨Expr.depth_lit_le v, by simp⟩

@[simp] theorem bounded_one_node (op : Op) (l r : Tree) (cs : List Char) :
    Outcome.bounded 1 (.node op l r) cs = .tooDeep := by
  refine dif_neg fun h => ?_
  have := l.depth_pos
  rw [Tree.depth_node] at h
  omega

/-- A tree takes nothing back of what goes wrong behind it. -/
theorem bounded_andThen_tooDeep {t : Tree} {cs : List Char} {f : Expr → List Char → Outcome β}
    (hf : ∀ e, f e cs = .tooDeep) : (Outcome.bounded n t cs).andThen f = .tooDeep := by
  unfold Outcome.bounded
  split
  · exact hf _
  · rfl

/-- An operator takes one level more than its operands, read one after the other. -/
theorem bounded_node {x y z : List Char} {f : Expr → List Char → Outcome Expr}
    {g : Expr → Expr → List Char → Outcome Expr}
    (hf : ∀ el, f el x = (Outcome.bounded n r y).andThen (g el))
    (hg : ∀ el er, g el er y = (combine op el er).on z) :
    (Outcome.bounded n l x).andThen f = Outcome.bounded (n + 1) (.node op l r) z := by
  unfold Outcome.bounded at *
  have hdepth : (Tree.node op l r).depth = 1 + max l.depth r.depth := rfl
  by_cases hl : l.depth ≤ maxDepth ∧ l.depth ≤ n
  · rw [dif_pos hl, Outcome.done_andThen, Cursor.rest_start, hf]
    by_cases hr : r.depth ≤ maxDepth ∧ r.depth ≤ n
    · rw [dif_pos hr, Outcome.done_andThen, Cursor.rest_start, hg]
      by_cases hnode : (Tree.node op l r).depth ≤ maxDepth
      · rw [dif_pos ⟨hnode, by omega⟩]
        exact on_combine rfl
      · rw [dif_neg fun h => hnode h.1]
        exact on_combine_of_lt (Nat.lt_of_not_le hnode)
    · rw [dif_neg hr, dif_neg fun h => hr (by omega), Outcome.tooDeep_andThen]
  · rw [dif_neg hl, dif_neg fun h => hl (by omega), Outcome.tooDeep_andThen]

end

/-! ## Blanks and words -/

@[simp] theorem on_blanks (cs : List Char) :
    blanks.on cs = .done () (.start (cs.dropWhile isBlank)) := by
  simp [on, blanks, Cursor.ext_rest_iff]

theorem on_word (w : String) (cs : List Char) : (word w).on cs =
    if w.toList.isPrefixOf cs then .done () (.start (cs.drop w.toList.length)) else .refused := by
  by_cases h : w.toList.isPrefixOf cs <;> simp [on, word, h, Cursor.ext_rest_iff]

@[simp] theorem on_word_append (w : String) (cs : List Char) :
    (word w).on (w.toList ++ cs) = .done () (.start cs) := by
  simp [on_word]

theorem on_word_of_mismatch {w : String} {cs : List Char} (h : ¬ w.toList <+: cs) :
    (word w).on cs = .refused := by
  simp [on_word, h]

theorem on_word_eq_done {w : String} {cs : List Char} {u : Unit} {next : Cursor} :
    (word w).on cs = .done u next ↔ cs = w.toList ++ next.rest := by
  by_cases h : w.toList <+: cs
  · obtain ⟨rest, rfl⟩ := h
    simp [Cursor.ext_rest_iff]
  · rw [on_word_of_mismatch h]
    simp only [reduceCtorEq, false_iff]
    rintro rfl
    exact h (List.prefix_append _ _)

/-! ## One of several words -/

section
variable {text : α → String} {as : List α} {a : α} {cs : List Char}

theorem on_oneOf_word (ha : a ∈ as)
    (hfree : ∀ b ∈ as, (text b).toList <+: (text a).toList ++ cs → b = a) :
    (oneOf (as.map fun b => do word (text b); return b)).on ((text a).toList ++ cs) =
      .done a (.start cs) := by
  induction as with
  | nil => cases ha
  | cons b as ih =>
    rw [List.map_cons, oneOf_cons, on_orElse, on_bind]
    by_cases hb : b = a
    · rw [hb, on_word_append, Outcome.done_andThen, on_pure, Outcome.done_orElse, Cursor.rest_start]
    · have hword : (word (text b)).on ((text a).toList ++ cs) = .refused :=
        on_word_of_mismatch fun h => hb (hfree b List.mem_cons_self h)
      rw [hword, Outcome.refused_andThen, Outcome.refused_orElse]
      exact ih ((List.mem_cons.1 ha).resolve_left (Ne.symm hb)) fun c hc =>
        hfree c (List.mem_cons_of_mem b hc)

theorem on_oneOf_word_eq_done {next : Cursor}
    (h : (oneOf (as.map fun b => do word (text b); return b)).on cs = .done a next) :
    cs = (text a).toList ++ next.rest := by
  induction as with
  | nil => cases h
  | cons b as ih =>
    rw [List.map_cons, oneOf_cons, on_orElse, Outcome.orElse_eq_done] at h
    rcases h with h | ⟨-, h⟩
    · simp only [on_bind_eq_done, on_pure] at h
      obtain ⟨_, middle, hword, ⟨⟩⟩ := h
      rw [Cursor.rest_start]
      exact on_word_eq_done.1 hword
    · exact ih h

end

/-! ## Chains -/

section
variable {step : α → Parser α} {a : α} {cs : List Char}

theorem on_chain : on (chain step a) cs =
    match (step a).on cs with
    | .done b next =>
      if next.rest.length < cs.length then on (chain step b) next.rest else .done a (.start cs)
    | .refused => .done a (.start cs)
    | .tooDeep => .tooDeep := by
  unfold on
  rw [chain]
  rcases step a (.start cs) with ⟨⟨b, next⟩ | _ | _, seen⟩
  · simp only [next.left_eq, (Cursor.start cs).left_eq, Cursor.rest_start]
    split <;> simp
  · rfl
  · rfl

theorem chain_of_done {b : α} {rest : List Char} (h : (step a).on cs = .done b (.start rest))
    (hlt : rest.length < cs.length) : on (chain step a) cs = on (chain step b) rest := by
  rw [on_chain, h]
  simp [hlt]

theorem chain_of_refused (h : (step a).on cs = .refused) :
    on (chain step a) cs = .done a (.start cs) := by
  rw [on_chain, h]

theorem chain_of_tooDeep (h : (step a).on cs = .tooDeep) : on (chain step a) cs = .tooDeep := by
  rw [on_chain, h]

/-- Where a chain ends, there holds what is true at its start and kept by every step. -/
theorem chain_induction {P : α → List Char → Prop}
    (hstep : ∀ a cs b next, P a cs → (step a).on cs = .done b next → P b next.rest) {b : α}
    {next : Cursor} (ha : P a cs) (h : on (chain step a) cs = .done b next) : P b next.rest := by
  induction hn : cs.length using Nat.strongRecOn generalizing a cs with
  | ind n ih =>
    rw [on_chain] at h
    cases hs : (step a).on cs with
    | done a' middle =>
      simp only [hs] at h
      split at h
      · rename_i hlt
        exact ih _ (hn ▸ hlt) (hstep _ _ _ _ ha hs) h rfl
      · cases h
        exact ha
    | refused =>
      simp only [hs] at h
      cases h
      exact ha
    | tooDeep => simp [hs] at h

end

end Parser

end ArithTree
