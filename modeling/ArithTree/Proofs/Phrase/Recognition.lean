import ArithTree.Proofs.Grammar.Source
import ArithTree.Proofs.Phrase.Language

/-!
# Recognition of phrases

The parser of phrases recognizes exactly the language of phrases. What it takes off behind an article
completes a phrase (`Clause`, `sound_within`, by induction on the articles left to open), so what it
takes off a text is a phrase that denotes the expression found (`sound_operand`). Together with
`Derives.on_operand` this gives `ofPhrase_exact`: a text that denotes a tree is read as this tree or
is too deep, and any other text is malformed.
-/

namespace ArithTree.Phrase

open ArithTree.Parser

variable {e : Expr} {inner : Parser Expr}

/-- The text `cs` makes a phrase of the tree `t` behind any article. -/
def Clause (cs : List Char) (t : Tree) : Prop :=
  ∀ w g, Blanks w → Gap g → Derives (w ++ ("the".toList ++ (g ++ cs))) t

theorem sound_operand (hinner : Sound inner Clause) : Sound (operand inner) Derives := by
  intro cs e next h
  rw [operand, on_orElse, Outcome.orElse_eq_done] at h
  rcases h with harticle | ⟨-, hlit⟩
  · obtain ⟨w, _, hw, hthe, h⟩ := on_blanks_word_eq_done harticle
    obtain ⟨_, _, hgap, h⟩ := on_bind_eq_done.1 h
    obtain ⟨g, hg, hrest⟩ := on_blanks1_eq_done hgap
    obtain ⟨a, ha, hclause⟩ := hinner _ _ _ h
    refine ⟨_, ?_, hclause w g hw hg⟩
    rw [hthe, hrest, ha]
    simp
  · obtain ⟨a, v, hcs, hspells, rfl⟩ := on_literal_eq_done hlit
    exact ⟨a, hcs, .literal hspells⟩

theorem sound_binary (hinner : Sound inner Clause) : Sound (binary inner) Clause := by
  intro cs e next h
  obtain ⟨op, _, hnoun, h⟩ := on_bind_eq_done.1 h
  obtain ⟨g₁, _, hg₁, hof, h⟩ := on_blanks1_word_eq_done h
  obtain ⟨_, _, hgap₂, h⟩ := on_bind_eq_done.1 h
  obtain ⟨g₂, hg₂, hleft⟩ := on_blanks1_eq_done hgap₂
  obtain ⟨l, _, hl, h⟩ := on_bind_eq_done.1 h
  obtain ⟨a, ha, hderl⟩ := sound_operand hinner _ _ _ hl
  obtain ⟨g₃, _, hg₃, hand, h⟩ := on_blanks1_word_eq_done h
  obtain ⟨_, _, hgap₄, h⟩ := on_bind_eq_done.1 h
  obtain ⟨g₄, hg₄, hright⟩ := on_blanks1_eq_done hgap₄
  obtain ⟨r, _, hr, h⟩ := on_bind_eq_done.1 h
  obtain ⟨b, hb, hderr⟩ := sound_operand hinner _ _ _ hr
  obtain ⟨he, rfl⟩ := on_combine_eq_done.1 h
  refine ⟨op.noun.toList ++ (g₁ ++ ("of".toList ++ (g₂ ++ (a ++ (g₃ ++ ("and".toList ++
    (g₄ ++ b))))))), ?_, fun w g hw hg => ?_⟩
  · rw [on_oneOf_word_eq_done hnoun, hof, hleft, ha, hand, hright, hb]
    simp
  · rw [he]
    exact .operator hw hg hg₁ hg₂ hderl hg₃ hg₄ hderr

theorem sound_within (n : Nat) : Sound (within .phrase binary n) Clause := by
  induction n with
  | zero => intro cs e next h; cases h
  | succ n ih =>
    intro cs e next h
    rw [on_within_succ] at h
    exact sound_binary ih cs e next h

/-! ## Whole texts -/

theorem denotes_of_ofPhrase {source : String} (h : Expr.ofPhrase source = .ok e) :
    Denotes source.toList e.tree :=
  (sound_operand (sound_within maxDepth)).of_read_eq_ok h

theorem ofPhrase_of_denotes {source : String} {t : Tree} (h : Denotes source.toList t) :
    Expr.ofPhrase source = Expr.ofTree t := by
  obtain ⟨a, w, hcs, ha, hw⟩ := h
  have hphrase : phrase.on source.toList = .bounded (maxDepth + 1) t w := by
    rw [hcs]
    exact ha.on_operand maxDepth hw.noDigit
  exact read_of_bounded hphrase (Nat.le_succ _) hw

/-- **The phrases are read, and nothing else.** A text that denotes a tree is read as this tree if
it has at most `maxDepth` levels, and is refused as too deep otherwise. A text that denotes no tree
is refused as malformed. -/
theorem ofPhrase_exact (source : String) :
    (∀ t, Denotes source.toList t → Expr.ofPhrase source =
      if h : t.depth ≤ maxDepth then .ok ⟨t, h⟩ else .error .tooDeep) ∧
    ((∀ t, ¬ Denotes source.toList t) →
      ∃ err, Expr.ofPhrase source = .error err ∧ err.kind = .malformed) := by
  refine ⟨fun t h => ofPhrase_of_denotes h, fun hnone => ?_⟩
  cases h : Expr.ofPhrase source with
  | ok e => exact absurd (denotes_of_ofPhrase h) (hnone e.tree)
  | error err => exact ⟨err, rfl, kind_of_read_eq_error h⟩

/-- A phrase with long gaps, and one without a gap between its operand and the conjunction. -/
theorem ofPhrase_exact_spaced :
    (Denotes "\tthe  sum of\n-03 and 2 ".toList (.node .add (.lit (-3)) (.lit 2)) ∧
      Expr.ofPhrase "\tthe  sum of\n-03 and 2 " =
        .ok ⟨.node .add (.lit (-3)) (.lit 2), by decide⟩) ∧
    (∀ t, ¬ Denotes "the sum of 1and 2".toList t) ∧
      ∃ err, Expr.ofPhrase "the sum of 1and 2" = .error err ∧ err.kind = .malformed := by
  have hgap (cs : List Char) (h : cs ≠ [] ∧ ∀ c ∈ cs, isBlank c) : Gap cs := h
  have hthree : Derives "-03".toList (.lit (-3)) :=
    .literal ⟨[], true, ['0', '3'], rfl, .nil, rfl, rfl⟩
  have htwo : Derives "2".toList (.lit 2) := .literal ⟨[], false, ['2'], rfl, .nil, rfl, rfl⟩
  have hadd : Derives _ (.node .add (.lit (-3)) (.lit 2)) :=
    .operator (hgap ['\t'] (by simp [isBlank])).2 (hgap [' ', ' '] (by simp [isBlank])) gap_space
      (hgap ['\n'] (by simp [isBlank])) hthree gap_space gap_space htwo
  have hsum : Denotes "\tthe  sum of\n-03 and 2 ".toList (.node .add (.lit (-3)) (.lit 2)) :=
    ⟨_, [' '], rfl, hadd, blanks_space⟩
  have hnone (t : Tree) : ¬ Denotes "the sum of 1and 2".toList t := fun h => by
    obtain ⟨place, expected, hread⟩ : ∃ place expected,
      Expr.ofPhrase "the sum of 1and 2" = .error (.unreadable .phrase place expected) := ⟨_, _, rfl⟩
    rw [ofPhrase_of_denotes h, Expr.ofTree_eq_error] at hread
    cases hread.2
  exact ⟨⟨hsum, (ofPhrase_exact _).1 _ hsum⟩, hnone, (ofPhrase_exact _).2 hnone⟩

end ArithTree.Phrase
