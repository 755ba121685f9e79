import ArithTree.Proofs.Formula.Reading

/-!
# Open groups

`Opens k n u`: the text `u` starts a text of rank `k` and ends right behind an opening parenthesis,
with `n` groups open there. Such a text is the start of a formula (`Opens.exists_derives`), and every
start of a formula that ends in this way is one (`Derives.exists_opens`). If more groups are open than
are left to open, the parser gives up there, whatever follows (`Opens.on_parser`): all that stands
before the last opening is read or is too deep itself.
-/

namespace ArithTree.Formula

open ArithTree.Parser

/-- The text `u` starts a text of rank `k` and has just opened the last of `n` groups. -/
inductive Opens : Rank → Nat → List Char → Prop
  | group {w : List Char} (before : Blanks w) : Opens .factor 1 (w ++ ['('])
  | inner {n : Nat} {w u : List Char} (before : Blanks w) (inside : Opens .sum n u) :
      Opens .factor (n + 1) (w ++ '(' :: u)
  | first {k : Rank} {n : Nat} {u : List Char} (chain : k ≠ .factor)
      (operand : Opens k.below n u) : Opens k n u
  | more {k : Rank} {n : Nat} {op : Op} {a w u : List Char} {l : Tree} (rank : op.rank = k)
      (left : Derives k a l) (before : Blanks w) (right : Opens k.below n u) :
      Opens k n (a ++ (w ++ (op.sign.toList ++ u)))

variable {k : Rank} {n m : Nat} {u v : List Char} {t : Tree}

/-! ## Starts of formulas -/

/-- What is open can be closed. -/
theorem Opens.exists_derives (h : Opens k n u) : ∃ v t, Derives k (u ++ v) t := by
  -- anything can stand in a group, so a literal does
  have hlit : Derives .sum ['1'] (.lit 1) :=
    .of_factor (.literal ⟨[], false, ['1'], rfl, .nil, rfl, rfl⟩)
  induction h with
  | @group w hw =>
    refine ⟨['1', ')'], .lit 1, ?_⟩
    have := Derives.group hw hlit .nil
    simpa using this
  | @inner n w u hw _ ih =>
    obtain ⟨v, t, hin⟩ := ih
    refine ⟨v ++ [')'], t, ?_⟩
    have := Derives.group hw hin .nil
    simpa using this
  | first hk _ ih =>
    obtain ⟨v, t, hop⟩ := ih
    exact ⟨v, t, .one hk hop⟩
  | @more _ _ op _ _ _ l hk hl hw _ ih =>
    obtain ⟨v, r, hr⟩ := ih
    refine ⟨v, .node op l r, ?_⟩
    simpa only [List.append_assoc] using Derives.more hk hl hw hr

/-- Every opening parenthesis of a formula opens a group. -/
theorem Derives.exists_opens (h : Derives k (u ++ '(' :: v) t) : ∃ n, Opens k n (u ++ ['(']) := by
  have hflat {cs : List Char} (hcs : ∀ c ∈ cs, isFlat c) : '(' ∉ cs :=
    fun hmem => absurd (hcs _ hmem) (by decide)
  generalize hs : u ++ '(' :: v = s at h
  induction h generalizing u v with
  | literal hspells => exact absurd (hs ▸ by simp) (hflat (flat_of_spells hspells))
  | @group w cs w' t hw _ hw' ih =>
    have hbefore : '(' ∉ w := hflat (flat_of_blanks hw)
    rcases append_cons_eq_append_cons hbefore hs.symm with rfl | ⟨p, rfl, hp⟩
    · exact ⟨1, .group hw⟩
    · rw [List.append_assoc] at hp
      rcases append_eq_append_cons hp with ⟨z, hcs⟩ | ⟨q, -, hend⟩
      · obtain ⟨n, hn⟩ := ih hcs.symm
        rw [List.append_assoc, List.cons_append]
        exact ⟨n + 1, .inner hw hn⟩
      · have hmem : '(' ∈ w' ++ [')'] := hend ▸ by simp
        rcases List.mem_append.1 hmem with hmem | hmem
        · exact absurd hmem (hflat (flat_of_blanks hw'))
        · simp at hmem
  | one hk _ ih =>
    obtain ⟨n, hn⟩ := ih hs
    exact ⟨n, .first hk hn⟩
  | @more k op a w b l r hk hl hw _ ihl ihr =>
    rcases append_eq_append_cons hs.symm with ⟨z, ha⟩ | ⟨p, rfl, hp⟩
    · exact ihl ha.symm
    · rw [← List.append_assoc] at hp
      obtain ⟨q, rfl, hq⟩ := append_eq_append_cons_of_not_mem (hflat (flat_sign hw)) hp
      obtain ⟨n, hn⟩ := ihr hq.symm
      refine ⟨n, ?_⟩
      simpa only [List.append_assoc] using Opens.more hk hl hw hn

theorem Opens.ends (h : Opens k n u) : ∃ p, u = p ++ ['('] := by
  induction h with
  | @group w _ => exact ⟨w, rfl⟩
  | @inner n w u _ _ ih =>
    obtain ⟨p, rfl⟩ := ih
    exact ⟨w ++ '(' :: p, by simp⟩
  | first _ _ ih => exact ih
  | @more k n op a w u l _ _ _ _ ih =>
    obtain ⟨p, rfl⟩ := ih
    exact ⟨a ++ (w ++ (op.sign.toList ++ p)), by simp only [List.append_assoc]⟩

/-! ## Openings that are too deep -/

theorem Opens.on_parser (h : Opens k n u) (hm : m < n) (v : List Char) :
    (k.parser m).on (u ++ v) = .tooDeep := by
  induction h generalizing m v with
  | @group w hw =>
    obtain rfl : m = 0 := by omega
    rw [List.append_assoc, List.singleton_append, on_factor_open 0 hw, on_within_zero,
      Outcome.tooDeep_andThen]
  | @inner n w u hw _ ih =>
    rw [List.append_assoc, List.cons_append, on_factor_open m hw]
    cases m with
    | zero => rw [on_within_zero, Outcome.tooDeep_andThen]
    | succ m =>
      have hsum : (Formula.sum (within .formula Formula.sum m)).on (u ++ v) = .tooDeep :=
        ih (by omega) v
      rw [on_within_succ, hsum, Outcome.tooDeep_andThen]
  | first hk _ ih => rw [on_rank hk, ih hm, Outcome.tooDeep_andThen]
  | @more k n op a w u l hk hl hw _ ih =>
    simp only [List.append_assoc]
    have hreads : Reads k m a l (w ++ (op.sign.toList ++ (u ++ v))) :=
      hl.reads m _ (follows_sign hk hw)
    by_cases hlim : l.depth ≤ maxDepth ∧ AtMostOpen m a
    · rw [hreads.ok ⟨l, hlim.1⟩ rfl hlim.2]
      apply chain_of_tooDeep
      rw [on_step hk hw, ih hm, Outcome.tooDeep_andThen]
    · exact hreads.tooDeep hlim

end ArithTree.Formula
