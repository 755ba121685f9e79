import ArithTree.Proofs.Phrase.Recognition
import ArithTree.Written

/-!
# Phrases read back

The written phrase of a tree denotes the tree (`derives_phrase`), and a text that denotes a tree is
read as this tree or is too deep (`ofPhrase_of_denotes`). So a phrase needs no parentheses to be read
back (`ofPhrase_phrase`): every `and` goes to the innermost `of` that is still open.
-/

namespace ArithTree

namespace Phrase

open ArithTree.Parser

theorem derives_phrase (t : Tree) : Derives t.phrase t := by
  induction t with
  | lit v =>
    rw [Tree.phrase_lit]
    exact .literal (spells_ofInt64 v)
  | node op l r ihl ihr =>
    have hphrase : (Tree.node op l r).phrase = "the".toList ++ ([' '] ++ (op.noun.toList ++ ([' '] ++
        ("of".toList ++ ([' '] ++ (l.phrase ++ ([' '] ++ ("and".toList ++ ([' '] ++
          r.phrase))))))))) := by
      simp [Tree.phrase_node]
    have hnode : Derives _ (.node op l r) :=
      .operator .nil gap_space gap_space gap_space ihl gap_space gap_space ihr
    rw [hphrase]
    simpa only [List.nil_append] using hnode

end Phrase

/-- **Phrases lose no grouping.** The phrase of a tree is read as this very tree if it has at most
`maxDepth` levels, and is refused as too deep otherwise; so every expression is read back from its
own phrase. -/
theorem ofPhrase_phrase (t : Tree) :
    Expr.ofPhrase (String.ofList t.phrase) =
      (if h : t.depth ≤ maxDepth then .ok ⟨t, h⟩ else .error .tooDeep) ∧
    ∀ e : Expr, Expr.ofPhrase e.phrase = .ok e := by
  have hread (t : Tree) : Expr.ofPhrase (String.ofList t.phrase) = Expr.ofTree t :=
    Phrase.ofPhrase_of_denotes ⟨t.phrase, [], by simp, Phrase.derives_phrase t, .nil⟩
  exact ⟨hread t, fun e => (hread e.tree).trans (Expr.ofTree_tree e)⟩

end ArithTree
