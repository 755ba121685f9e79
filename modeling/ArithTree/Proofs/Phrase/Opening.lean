import ArithTree.Proofs.Phrase.Language

/-!
# Open phrases

`Opens n u`: the text `u` starts a phrase and ends in the gap behind the article of the last of `n`
phrases that are not complete. Such a text is the start of a phrase (`Opens.exists_derives`), and
every start of a phrase that ends behind an article is one (`Derives.exists_opens`): the letter `h`
stands in articles only. If more phrases are open than there are articles left to open, the parser
gives up there, whatever follows (`Opens.on_operand`).
-/

namespace ArithTree.Phrase

open ArithTree.Parser

/-- The text `u` starts a phrase and has just opened the last of `n` phrases. -/
inductive Opens : Nat → List Char → Prop
  | article {w g : List Char} (before : Blanks w) (after : Gap g) :
      Opens 1 (w ++ ("the".toList ++ g))
  | left {n : Nat} {op : Op} {w g₁ g₂ g₃ u : List Char} (before : Blanks w) (noun : Gap g₁)
      (preposition : Gap g₂) (first : Gap g₃) (inside : Opens n u) :
      Opens (n + 1) (w ++ ("the".toList ++ (g₁ ++ (op.noun.toList ++ (g₂ ++ ("of".toList ++
        (g₃ ++ u)))))))
  | right {n : Nat} {op : Op} {w g₁ g₂ g₃ g₄ g₅ a u : List Char} {l : Tree} (before : Blanks w)
      (noun : Gap g₁) (preposition : Gap g₂) (first : Gap g₃) (left : Derives a l)
      (conjunction : Gap g₄) (second : Gap g₅) (inside : Opens n u) :
      Opens (n + 1) (w ++ ("the".toList ++ (g₁ ++ (op.noun.toList ++ (g₂ ++ ("of".toList ++ (g₃ ++
        (a ++ (g₄ ++ ("and".toList ++ (g₅ ++ u)))))))))))

variable {n m : Nat} {u v z : List Char} {t : Tree}

/-! ## Starts of phrases -/

/-- What is open can be completed. -/
theorem Opens.exists_derives (h : Opens n u) : ∃ v t, Derives (u ++ v) t := by
  -- anything can stand for an operand that is missing, so a literal does
  have hlit : Derives "1".toList (.lit 1) := .literal ⟨[], false, ['1'], rfl, .nil, rfl, rfl⟩
  induction h with
  | @article w g hw hg =>
    refine ⟨"sum of 1 and 1".toList, .node .add (.lit 1) (.lit 1), ?_⟩
    have hnode : Derives _ (.node .add (.lit 1) (.lit 1)) :=
      .operator hw hg gap_space gap_space hlit gap_space gap_space hlit
    simpa [Op.noun] using hnode
  | @left n op w g₁ g₂ g₃ u hw hg₁ hg₂ hg₃ _ ih =>
    obtain ⟨v, l, hl⟩ := ih
    refine ⟨v ++ " and 1".toList, .node op l (.lit 1), ?_⟩
    have hnode : Derives _ (.node op l (.lit 1)) :=
      .operator hw hg₁ hg₂ hg₃ hl gap_space gap_space hlit
    simpa using hnode
  | @right n op w g₁ g₂ g₃ g₄ g₅ a u l hw hg₁ hg₂ hg₃ hl hg₄ hg₅ _ ih =>
    obtain ⟨v, r, hr⟩ := ih
    refine ⟨v, .node op l r, ?_⟩
    have hnode : Derives _ (.node op l r) := .operator hw hg₁ hg₂ hg₃ hl hg₄ hg₅ hr
    simpa using hnode

/-- Every `h` of a phrase stands in an article, which opens a phrase whatever the gap behind it. -/
theorem Derives.exists_opens (h : Derives (u ++ 'h' :: z) t) :
    ∃ n, ∀ g, Gap g → Opens n (u ++ 'h' :: 'e' :: g) := by
  generalize hs : u ++ 'h' :: z = s at h
  induction h generalizing u z with
  | @literal cs x hcs =>
    have hmem : 'h' ∈ cs := hs ▸ by simp
    exact absurd (hcs.mem hmem) (by decide)
  | @operator op w g₁ g₂ g₃ g₄ g₅ a b l r hw hg₁ hg₂ hg₃ hl hg₄ hg₅ _ ihl ihr =>
    have hbefore : 'h' ∉ w ++ ['t'] := by
      simp only [List.mem_append, not_or]
      exact ⟨hw.not_mem rfl, by decide⟩
    have hhead : 'h' ∉ 'e' :: (g₁ ++ (op.noun.toList ++ (g₂ ++ ("of".toList ++ g₃)))) := by
      have hnoun : 'h' ∉ op.noun.toList := by cases op <;> decide
      simp only [List.mem_cons, List.mem_append, not_or]
      exact ⟨by decide, hg₁.2.not_mem rfl, hnoun, hg₂.2.not_mem rfl, by decide, hg₃.2.not_mem rfl⟩
    have hmiddle : 'h' ∉ g₄ ++ ("and".toList ++ g₅) := by
      simp only [List.mem_append, not_or]
      exact ⟨hg₄.2.not_mem rfl, by decide, hg₅.2.not_mem rfl⟩
    have hsplit : (w ++ ['t']) ++ 'h' ::
        ('e' :: (g₁ ++ (op.noun.toList ++ (g₂ ++ ("of".toList ++ g₃)))) ++
          (a ++ ((g₄ ++ ("and".toList ++ g₅)) ++ b))) = u ++ 'h' :: z := by
      rw [hs]
      simp
    rcases append_cons_eq_append_cons hbefore hsplit with rfl | ⟨p, rfl, hp⟩
    · refine ⟨1, fun g hg => ?_⟩
      simpa using Opens.article hw hg
    obtain ⟨q, rfl, hq⟩ := append_eq_append_cons_of_not_mem hhead hp
    rcases append_eq_append_cons hq with ⟨z', ha⟩ | ⟨q', rfl, hq'⟩
    · obtain ⟨n, hn⟩ := ihl ha.symm
      refine ⟨n + 1, fun g hg => ?_⟩
      have hopen : Opens _ (w ++ ("the".toList ++ (g₁ ++ (op.noun.toList ++ _)))) :=
        .left hw hg₁ hg₂ hg₃ (hn g hg)
      simpa using hopen
    · obtain ⟨q'', rfl, hb⟩ := append_eq_append_cons_of_not_mem hmiddle hq'
      obtain ⟨n, hn⟩ := ihr hb.symm
      refine ⟨n + 1, fun g hg => ?_⟩
      have hopen : Opens _ (w ++ ("the".toList ++ (g₁ ++ (op.noun.toList ++ _)))) :=
        .right hw hg₁ hg₂ hg₃ hl hg₄ hg₅ (hn g hg)
      simpa using hopen

theorem Opens.ends (h : Opens n u) : ∃ p g, Gap g ∧ u = p ++ ("the".toList ++ g) := by
  induction h with
  | @article w g _ hg => exact ⟨w, g, hg, rfl⟩
  | @left n op w g₁ g₂ g₃ u _ _ _ _ _ ih =>
    obtain ⟨p, g, hg, rfl⟩ := ih
    refine ⟨w ++ ("the".toList ++ (g₁ ++ (op.noun.toList ++ (g₂ ++ ("of".toList ++ (g₃ ++ p)))))),
      g, hg, ?_⟩
    simp only [List.append_assoc]
  | @right n op w g₁ g₂ g₃ g₄ g₅ a u l _ _ _ _ _ _ _ _ ih =>
    obtain ⟨p, g, hg, rfl⟩ := ih
    refine ⟨w ++ ("the".toList ++ (g₁ ++ (op.noun.toList ++ (g₂ ++ ("of".toList ++ (g₃ ++ (a ++
      (g₄ ++ ("and".toList ++ (g₅ ++ p)))))))))), g, hg, ?_⟩
    simp only [List.append_assoc]

/-! ## Openings that are too deep -/

theorem Opens.on_operand (h : Opens n u) (hm : m < n) (v : List Char) :
    (operand (within .phrase binary m)).on (u ++ v) = .tooDeep := by
  induction h generalizing m v with
  | @article w g hw hg =>
    obtain rfl : m = 0 := by omega
    simp only [List.append_assoc]
    rw [on_operand_article hw hg, on_within_zero]
  | @left n op w g₁ g₂ g₃ u hw hg₁ hg₂ hg₃ _ ih =>
    simp only [List.append_assoc]
    rw [on_operand_article hw hg₁, dropWhile_solid (isSolid_noun op)]
    cases m with
    | zero => rw [on_within_zero]
    | succ m => rw [on_within_succ, on_binary hg₂ hg₃, ih (by omega), Outcome.tooDeep_andThen]
  | @right n op w g₁ g₂ g₃ g₄ g₅ a u l hw hg₁ hg₂ hg₃ hl hg₄ hg₅ _ ih =>
    simp only [List.append_assoc]
    rw [on_operand_article hw hg₁, dropWhile_solid (isSolid_noun op)]
    cases m with
    | zero => rw [on_within_zero]
    | succ m =>
      rw [on_within_succ, on_binary hg₂ hg₃, hl.on_operand m (noDigit_conjunction hg₄ _)]
      apply bounded_andThen_tooDeep
      intro el
      rw [on_conjoined hg₄ hg₅, ih (by omega), Outcome.tooDeep_andThen]

end ArithTree.Phrase
