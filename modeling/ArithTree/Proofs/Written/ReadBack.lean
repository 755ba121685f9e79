import ArithTree.Dialect
import ArithTree.Proofs.Call.Recognition
import ArithTree.Proofs.Form.RoundTrip
import ArithTree.Proofs.Formula.RoundTrip
import ArithTree.Proofs.Phrase.RoundTrip

/-!
# Writings that are read back

Every writing but the sparing formula is read back as the expression that was written
(`Expr.readBack_eq`), each because its own grammar recognizes it. A text that is read back belongs to
one expression only, so such a writing tells expressions apart (`Expr.write_inj`).
-/

namespace ArithTree.Expr

variable {w : Writing} {a b : Expr}

theorem readBack_eq (hw : w ≠ .formula .sparing) (e : Expr) : e.readBack w = .ok e := by
  cases w with
  | sexpr => exact (ofSexpr_text e.tree).trans (dif_pos e.depth_le)
  | formula grouping =>
    cases grouping with
    | faithful => exact (ofFormula_written e.tree).trans (dif_pos e.depth_le)
    | sparing => exact absurd rfl hw
  | phrase =>
    have hdenotes : Phrase.Denotes e.phrase.toList e.tree :=
      ⟨e.tree.phrase, [], by simp [phrase], Phrase.derives_phrase e.tree, .nil⟩
    exact (Phrase.ofPhrase_of_denotes hdenotes).trans (ofTree_tree e)
  | call =>
    have hdenotes : Call.Denotes e.call.toList e.tree :=
      ⟨e.tree.call, [], by simp [call], Call.derives_call e.tree, .nil⟩
    exact (Call.ofCall_of_denotes hdenotes).trans (ofTree_tree e)

theorem write_inj (hw : w ≠ .formula .sparing) : a.write w = b.write w ↔ a = b := by
  refine ⟨fun h => ?_, fun h => h ▸ rfl⟩
  have hread : w.dialect.read (a.write w) = w.dialect.read (b.write w) := by rw [h]
  exact Except.ok.inj ((readBack_eq hw a).symm.trans (hread.trans (readBack_eq hw b)))

end ArithTree.Expr
