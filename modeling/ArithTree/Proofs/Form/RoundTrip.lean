import ArithTree.Proofs.Form.Flattening
import ArithTree.Proofs.Form.Limit
import ArithTree.Proofs.Form.Scan
import ArithTree.Proofs.Numeral.Spelling
import Mathlib.Data.List.Forall2

/-!
# Written S-expressions

Reading S-expressions is inverse to writing them. The text of a tree denotes the tree, unless the
tree is too deep; and a source denotes an expression exactly if its tokens start with those of the
expression's own text, up to the spelling of its integers (`ofSexpr_sexpr`). A token respells
another one if both have the same piece (`respells_iff_piece_eq`), so the flattening of forms
carries the proof.
-/

namespace ArithTree

/-! ## The words of written trees -/

namespace Atom

variable {w : String}

theorem ofText_eq_int_iff {v : Int64} :
    ofText w = .int v ↔ Numeral.Spelling v.toInt w.toList := by
  rw [← Numeral.readInt64?_eq_some_iff, ofText]
  split
  · rename_i i hi
    simp [hi]
  · rename_i hi
    split <;> simp [hi]

theorem eq_of_ofText_eq_symbol {name : String} (h : ofText w = .symbol name) : w = name := by
  unfold ofText at h
  split at h
  · cases h
  · split at h <;> cases h
    rfl

theorem ofText_ofInt64 (v : Int64) : ofText (String.ofList (Numeral.ofInt64 v)) = .int v := by
  simp [ofText]

theorem ofText_numberWord : ofText Form.numberWord = .symbol Form.numberWord := rfl

theorem ofText_keyword (op : Op) : ofText op.keyword = .symbol op.keyword := by
  cases op <;> rfl

end Atom

namespace Token

/-- The same token, or another spelling of an integer that stands in its written form. -/
def Respells (a b : Token) : Prop :=
  a = b ∨ ∃ (v : Int64) (u : String), a = .word u ∧ Numeral.Spelling v.toInt u.toList ∧
    b = .word (String.ofList (Numeral.ofInt64 v))

/-- A parenthesis, a written integer or a word that is a symbol. A real is left out: it has several
spellings, and none of them respells another. -/
def IsWritten : Token → Prop
  | .opening | .closing => True
  | .word w => (∃ v, w = String.ofList (Numeral.ofInt64 v)) ∨ Atom.ofText w = .symbol w

theorem Respells.piece_eq {a b : Token} (h : Respells a b) : a.piece = b.piece := by
  rcases h with rfl | ⟨v, u, rfl, hu, rfl⟩
  · rfl
  · rw [piece, Atom.ofText_eq_int_iff.2 hu, piece, Atom.ofText_ofInt64]

theorem respells_iff_piece_eq {a b : Token} (hb : b.IsWritten) :
    Respells a b ↔ a.piece = b.piece := by
  refine ⟨Respells.piece_eq, fun h => ?_⟩
  cases b with
  | opening => exact .inl (piece_eq_opening.1 h)
  | closing => exact .inl (piece_eq_closing.1 h)
  | word w =>
    obtain ⟨u, rfl, hu⟩ := piece_eq_atom.1 h
    rcases hb with ⟨v, rfl⟩ | hsymbol
    · rw [Atom.ofText_ofInt64] at hu
      exact .inr ⟨v, u, rfl, Atom.ofText_eq_int_iff.1 hu, rfl⟩
    · rw [hsymbol] at hu
      rw [Atom.eq_of_ofText_eq_symbol hu]
      exact .inl rfl

theorem forall₂_respells_iff {ts us : List Token} (h : ∀ u ∈ us, u.IsWritten) :
    List.Forall₂ Respells ts us ↔ ts.map piece = us.map piece := by
  induction us generalizing ts with
  | nil => simp
  | cons u us ih =>
    rw [List.forall_mem_cons] at h
    cases ts with
    | nil => simp
    | cons t ts => simp [respells_iff_piece_eq h.1, ih h.2]

end Token

namespace Tree

theorem isWritten_of_mem_tokens {t : Tree} {u : Token} (h : u ∈ t.tokens) : u.IsWritten := by
  induction t with
  | lit v =>
    simp only [tokens, List.mem_cons, List.not_mem_nil, or_false] at h
    rcases h with rfl | rfl | rfl | rfl
    · exact trivial
    · exact .inr Atom.ofText_numberWord
    · exact .inl ⟨v, rfl⟩
    · exact trivial
  | node op l r ihl ihr =>
    simp only [tokens, List.mem_cons, List.mem_append, List.not_mem_nil, or_false] at h
    rcases h with rfl | rfl | hl | hr | rfl
    · exact trivial
    · exact .inr (Atom.ofText_keyword op)
    · exact ihl hl
    · exact ihr hr
    · exact trivial

theorem map_piece_tokens (t : Tree) : t.tokens.map Token.piece = t.form.pieces := by
  induction t with
  | lit v =>
    simp [tokens, form, Form.literal, Form.pieces, Form.piecesOfItems, Token.piece,
      Atom.ofText_numberWord, Atom.ofText_ofInt64]
  | node op l r ihl ihr =>
    simp [tokens, form, Form.operator, Form.pieces, Form.piecesOfItems, Token.piece,
      Atom.ofText_keyword, ihl, ihr]

theorem forall₂_respells_tokens_iff {t : Tree} {ts : List Token} :
    List.Forall₂ Token.Respells ts t.tokens ↔ ts.map Token.piece = t.form.pieces := by
  rw [Token.forall₂_respells_iff fun u hu => isWritten_of_mem_tokens hu, map_piece_tokens]

end Tree

/-! ## Reading and writing -/

namespace Expr

variable {source : String} {e : Expr}

theorem ofSexpr_eq_ok_iff : ofSexpr source = .ok e ↔ ∃ reading,
    Form.read (Token.ofSource source) = .ok reading ∧ reading.form = e.tree.form := by
  rw [ofSexpr]
  cases h : Form.read (Token.ofSource source) with
  | error err => simp [bind, Except.bind]
  | ok reading =>
    have hform : reading.form.toExpr = .ok e ↔ reading.form = e.tree.form :=
      Form.toExprWithin_eq_ok (Form.height_le_of_read h) (Nat.le_refl _)
    simpa [bind, Except.bind] using hform

/-- The tokens of an expression can be spelled in other ways, and anything can follow them. -/
theorem ofSexpr_eq_ok_iff_tokens : ofSexpr source = .ok e ↔ ∃ ts rest,
    Token.ofSource source = ts ++ rest ∧ ts.map Token.piece = e.tree.form.pieces := by
  rw [ofSexpr_eq_ok_iff]
  constructor
  · rintro ⟨reading, hread, hform⟩
    obtain ⟨-, ts, rest, htokens, -, hpieces⟩ := Form.read_eq_ok_iff.1 hread
    exact ⟨ts, rest, htokens, hform ▸ hpieces⟩
  · rintro ⟨ts, rest, htokens, hpieces⟩
    have hheight : e.tree.form.height ≤ maxDepth := Form.height_form e.tree ▸ e.depth_le
    exact ⟨⟨e.tree.form, ts.length⟩,
      Form.read_eq_ok_iff.2 ⟨hheight, ts, rest, htokens, rfl, hpieces⟩, rfl⟩

theorem ofSexpr_eq_ok_iff_used : ofSexpr source = .ok e ↔ ∃ reading,
    Form.read (Token.ofSource source) = .ok reading ∧
      ((Token.ofSource source).take reading.used).map Token.piece = e.tree.form.pieces := by
  constructor
  · intro h
    obtain ⟨reading, hread, hform⟩ := ofSexpr_eq_ok_iff.1 h
    exact ⟨reading, hread, by rw [← Form.pieces_of_read hread, hform]⟩
  · rintro ⟨reading, -, hpieces⟩
    exact ofSexpr_eq_ok_iff_tokens.2 ⟨_, _, (List.take_append_drop ..).symm, hpieces⟩

theorem ofSexpr_text (t : Tree) : ofSexpr (String.ofList t.sexpr) =
    if h : t.depth ≤ maxDepth then .ok ⟨t, h⟩ else .error .tooDeep := by
  have hread := Form.read_pieces t.form t.map_piece_tokens []
  rw [List.append_nil, Form.height_form] at hread
  rw [ofSexpr, Token.ofSource_sexpr, hread]
  split
  · rename_i h
    exact Form.toExprWithin_form h (Nat.le_refl _)
  · rfl

end Expr

/-- **Reading inverts writing.** The text of a tree denotes the tree, or is too deep if the tree is.
A source denotes an expression exactly if the tokens that the reader uses respell those of the
expression's text, one by one, and exactly if some first tokens of the source do. -/
theorem ofSexpr_sexpr :
    (∀ t : Tree, Expr.ofSexpr (String.ofList t.sexpr) =
      if h : t.depth ≤ maxDepth then .ok ⟨t, h⟩ else .error .tooDeep) ∧
    (∀ source e, Expr.ofSexpr source = .ok e ↔
      ∃ reading, Form.read (Token.ofSource source) = .ok reading ∧
        List.Forall₂ Token.Respells ((Token.ofSource source).take reading.used)
          (Token.ofSource e.sexpr)) ∧
    (∀ source e, Expr.ofSexpr source = .ok e ↔
      ∃ ts rest, Token.ofSource source = ts ++ rest ∧
        List.Forall₂ Token.Respells ts (Token.ofSource e.sexpr)) := by
  have hpieces (e : Expr) (ts : List Token) :
      List.Forall₂ Token.Respells ts (Token.ofSource e.sexpr) ↔
        ts.map Token.piece = e.tree.form.pieces := by
    rw [Expr.sexpr, Token.ofSource_sexpr, Tree.forall₂_respells_tokens_iff]
  simp only [hpieces]
  exact ⟨Expr.ofSexpr_text, fun _ _ => Expr.ofSexpr_eq_ok_iff_used,
    fun _ _ => Expr.ofSexpr_eq_ok_iff_tokens⟩

end ArithTree
