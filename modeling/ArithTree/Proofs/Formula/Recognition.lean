import ArithTree.Proofs.Formula.Reading
import ArithTree.Proofs.Grammar.Source

/-!
# Recognition of formulas

The parser of formulas recognizes exactly the language of formulas. `Sound p k`: whatever `p` takes
off a text is of rank `k` and denotes the expression found. The parser of every rank is sound
(`sound_of_rank`), by induction on the groups left to open and, inside a chain, on its steps.
Together with `Derives.reads` this gives `ofFormula_exact`: a text that denotes a tree is read as
this tree if tree and groups are within the limit and is too deep otherwise, and a text that denotes
no tree is malformed.
-/

namespace ArithTree.Formula

open ArithTree.Parser

/-- What the parser takes off a text is of rank `k` and denotes the expression it finds. -/
def Sound (p : Parser Expr) (k : Rank) : Prop :=
  ∀ cs e next, p.on cs = .done e next → ∃ a, cs = a ++ next.rest ∧ Derives k a e.tree

variable {k : Rank} {n : Nat} {cs : List Char} {next : Cursor} {e : Expr}

theorem sound_factor {inner : Parser Expr} (h : Sound inner .sum) :
    Sound (factor inner) .factor := by
  intro cs e next hdone
  rw [factor, on_orElse, Outcome.orElse_eq_done] at hdone
  rcases hdone with hlit | ⟨-, hgroup⟩
  · obtain ⟨a, v, hcs, ha, rfl⟩ := on_literal_eq_done hlit
    exact ⟨a, hcs, .literal ha⟩
  · obtain ⟨w, _, hw, hopening, hgroup⟩ := on_blanks_word_eq_done hgroup
    obtain ⟨e', _, hinner, hgroup⟩ := on_bind_eq_done.1 hgroup
    obtain ⟨a, ha, hder⟩ := h _ _ _ hinner
    obtain ⟨w', _, hw', hclosing, hgroup⟩ := on_blanks_word_eq_done hgroup
    cases hgroup
    refine ⟨w ++ '(' :: ((a ++ w') ++ [')']), ?_, .group hw hder hw'⟩
    rw [hopening, ha, hclosing]
    simp

theorem mem_of_on_sign {ops : List Op} {op : Op} (h : (sign ops).on cs = .done op next) :
    op ∈ ops ∧ ∃ w, Blanks w ∧ cs = w ++ (op.sign.toList ++ next.rest) := by
  induction ops with
  | nil => cases h
  | cons o ops ih =>
    rw [sign, List.map_cons, oneOf_cons, on_orElse, Outcome.orElse_eq_done] at h
    rcases h with h | ⟨-, h⟩
    · obtain ⟨w, rest, hw, hcs, h⟩ := on_blanks_word_eq_done h
      cases h
      exact ⟨List.mem_cons_self, w, hw, hcs⟩
    · exact ⟨List.mem_cons_of_mem _ (ih h).1, (ih h).2⟩

theorem rank_of_mem_ops {op : Op} (h : op ∈ k.ops) : op.rank = k := by
  cases k <;> simp [Rank.ops] at h <;> rcases h with rfl | rfl <;> rfl

/-- A step of a chain reads one more operand of it. -/
theorem derives_step (h : Sound (k.below.parser n) k.below) {a rest : List Char} {l : Expr}
    (hl : Derives k a l.tree)
    (hstep : (step k.ops (k.below.parser n) l).on rest = .done e next) :
    ∃ b, rest = b ++ next.rest ∧ Derives k (a ++ b) e.tree := by
  simp only [step, on_bind_eq_done] at hstep
  obtain ⟨op, m, hsign, r, m', hright, hcomb⟩ := hstep
  obtain ⟨hop, w, hw, hrest⟩ := mem_of_on_sign hsign
  obtain ⟨b, hb, hr⟩ := h _ _ _ hright
  obtain ⟨he, rfl⟩ := on_combine_eq_done.1 hcomb
  refine ⟨w ++ (op.sign.toList ++ b), ?_, ?_⟩
  · rw [hrest, hb]
    simp
  · rw [he]
    exact .more (rank_of_mem_ops hop) hl hw hr

theorem sound_chain (hk : k ≠ .factor) (h : Sound (k.below.parser n) k.below) :
    Sound (k.parser n) k := by
  intro cs e next hdone
  rw [on_rank hk, Outcome.andThen_eq_done] at hdone
  obtain ⟨first, m, hfirst, htail⟩ := hdone
  -- what is read so far is always a shorter chain
  refine chain_induction (P := fun e rest => ∃ a, cs = a ++ rest ∧ Derives k a e.tree) ?_ ?_ htail
  · rintro l _ e next ⟨a, rfl, hl⟩ hstep
    obtain ⟨b, rfl, hder⟩ := derives_step h hl hstep
    exact ⟨a ++ b, by simp, hder⟩
  · obtain ⟨a, ha, hder⟩ := h _ _ _ hfirst
    exact ⟨a, ha, .one hk hder⟩

theorem sound_of_within (h : Sound (within .formula Formula.sum n) .sum) (k : Rank) :
    Sound (k.parser n) k := by
  have hf : Sound (Rank.factor.parser n) .factor := sound_factor h
  have hp : Sound (Rank.product.parser n) .product := sound_chain (by decide) hf
  cases k with
  | factor => exact hf
  | product => exact hp
  | sum => exact sound_chain (by decide) hp

theorem sound_within (n : Nat) : Sound (within .formula Formula.sum n) .sum := by
  induction n with
  | zero => intro cs e next h; cases h
  | succ n ih =>
    intro cs e next h
    rw [on_within_succ] at h
    exact sound_of_within ih .sum cs e next h

theorem sound_of_rank (k : Rank) (n : Nat) : Sound (k.parser n) k :=
  sound_of_within (sound_within n) k

/-! ## Whole texts -/

theorem ofFormula_eq (source : String) :
    Expr.ofFormula source = (Rank.sum.parser maxDepth).read .formula source.toList := rfl

theorem denotes_of_ofFormula {source : String} (h : Expr.ofFormula source = .ok e) :
    Denotes source.toList e.tree := by
  rw [ofFormula_eq] at h
  exact Parser.Sound.of_read_eq_ok (sound_of_rank .sum maxDepth) h

theorem ofFormula_of_denotes {source : String} {t : Tree} (h : Denotes source.toList t) :
    Expr.ofFormula source =
      if h : t.depth ≤ maxDepth ∧ AtMostOpen maxDepth source.toList then .ok ⟨t, h.1⟩
      else .error .tooDeep := by
  obtain ⟨a, w, hcs, hder, hw⟩ := h
  rw [ofFormula_eq]
  have hend : Rank.sum.Follows w ∧ Rank.sum.Stops w := by
    rw [← List.append_nil w]
    exact ⟨follows_of_end hw (by simp), stops_of_end hw (by simp)⟩
  have hreads := hder.reads maxDepth w hend.1
  have hopen : AtMostOpen maxDepth source.toList ↔ AtMostOpen maxDepth a := by
    rw [hcs, atMostOpen_append hder.balanced]
    simp [AtMostOpen.of_flat (flat_of_blanks hw) maxDepth]
  split
  · rename_i h
    have hsum := hreads.done (e := ⟨t, h.1⟩) hend.2 rfl (hopen.1 h.2)
    rw [← hcs] at hsum
    exact read_of_done hsum hw
  · rename_i h
    have hsum := hreads.tooDeep fun hlim => h ⟨hlim.1, hopen.2 hlim.2⟩
    rw [← hcs] at hsum
    exact read_of_tooDeep hsum

/-- **The formulas are read, and nothing else.** A text that denotes a tree is read as this tree
if at most `maxDepth` parentheses are open at once and the tree has at most `maxDepth` levels, and
is refused as too deep otherwise. A text that denotes no tree is refused as malformed. -/
theorem ofFormula_exact (source : String) :
    (∀ t, Denotes source.toList t → Expr.ofFormula source =
      if h : t.depth ≤ maxDepth ∧ AtMostOpen maxDepth source.toList then .ok ⟨t, h.1⟩
      else .error .tooDeep) ∧
    ((∀ t, ¬ Denotes source.toList t) →
      ∃ err, Expr.ofFormula source = .error err ∧ err.kind = .malformed) := by
  refine ⟨fun t h => ofFormula_of_denotes h, fun hnone => ?_⟩
  cases h : Expr.ofFormula source with
  | ok e => exact absurd (denotes_of_ofFormula h) (hnone e.tree)
  | error err =>
    rw [ofFormula_eq] at h
    exact ⟨err, rfl, kind_of_read_eq_error h⟩

end ArithTree.Formula
