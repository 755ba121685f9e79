import ArithTree.Proofs.Call.Language
import ArithTree.Proofs.Grammar.Source
import ArithTree.Written

/-!
# Recognition of calls

The parser of calls recognizes exactly the language of calls: what it takes off a text is a call that
denotes the expression found (`sound_either`, by induction on the operand lists left to open), and
every call is taken (`Derives.on_either`). So a text that denotes a tree is read as this tree or is
too deep, and any other text is malformed (`ofCall_exact`). The written call of a tree denotes the
tree, so it is read back (`ofCall_call`).
-/

namespace ArithTree

namespace Call

open ArithTree.Parser

variable {e : Expr}

/-- What the parser takes off a text is two calls with a comma between them. -/
def SoundOperands (p : Parser (Expr × Expr)) : Prop :=
  ∀ cs l r next, p.on cs = .done (l, r) next →
    ∃ a w b, cs = a ++ (w ++ (",".toList ++ (b ++ next.rest))) ∧ Derives a l.tree ∧ Blanks w ∧
      Derives b r.tree

theorem sound_number : Sound number Derives := by
  intro cs e next h
  obtain ⟨w₁, _, hw₁, hword, h⟩ := on_blanks_word_eq_done h
  obtain ⟨w₂, _, hw₂, hopening, h⟩ := on_blanks_word_eq_done h
  obtain ⟨_, _, hlit, h⟩ := on_bind_eq_done.1 h
  obtain ⟨a, v, ha, hspells, rfl⟩ := on_literal_eq_done hlit
  obtain ⟨w₃, _, hw₃, hclosing, h⟩ := on_blanks_word_eq_done h
  cases h
  refine ⟨_, ?_, .number hw₁ hw₂ hspells hw₃⟩
  rw [hword, hopening, ha, hclosing]
  simp

theorem sound_operator {inner : Parser (Expr × Expr)} (hinner : SoundOperands inner) :
    Sound (operator inner) Derives := by
  intro cs e next h
  obtain ⟨w₁, hw₁, hcs⟩ := blanks_append_dropWhile cs
  rw [operator, on_bind, on_blanks, Outcome.done_andThen, Cursor.rest_start] at h
  obtain ⟨op, _, hname, h⟩ := on_bind_eq_done.1 h
  obtain ⟨w₂, _, hw₂, hopening, h⟩ := on_blanks_word_eq_done h
  obtain ⟨⟨l, r⟩, _, hargs, h⟩ := on_bind_eq_done.1 h
  obtain ⟨a, w₃, b, hab, ha, hw₃, hb⟩ := hinner _ _ _ _ hargs
  obtain ⟨w₄, _, hw₄, hclosing, h⟩ := on_blanks_word_eq_done h
  obtain ⟨he, rfl⟩ := on_combine_eq_done.1 h
  rw [he]
  refine ⟨_, ?_, .operator hw₁ hw₂ ha hw₃ hb hw₄⟩
  rw [hcs, on_oneOf_word_eq_done hname, hopening, hab, hclosing]
  simp

theorem sound_either {inner : Parser (Expr × Expr)} (hinner : SoundOperands inner) :
    Sound (either inner) Derives := by
  intro cs e next h
  rw [either, on_orElse, Outcome.orElse_eq_done] at h
  rcases h with h | ⟨-, h⟩
  · exact sound_number cs e next h
  · exact sound_operator hinner cs e next h

theorem soundOperands {inner : Parser (Expr × Expr)} (hinner : SoundOperands inner) :
    SoundOperands (operands inner) := by
  intro cs l r next h
  obtain ⟨l, _, hleft, h⟩ := on_bind_eq_done.1 h
  obtain ⟨a, hcs, ha⟩ := sound_either hinner _ _ _ hleft
  obtain ⟨w, _, hw, hcomma, h⟩ := on_blanks_word_eq_done h
  obtain ⟨r, _, hright, h⟩ := on_bind_eq_done.1 h
  obtain ⟨b, hrest, hb⟩ := sound_either hinner _ _ _ hright
  cases h
  exact ⟨a, w, b, by rw [hcs, hcomma, hrest, Cursor.rest_start], ha, hw, hb⟩

theorem soundOperands_within (n : Nat) : SoundOperands (within .call operands n) := by
  induction n with
  | zero => intro cs l r next h; cases h
  | succ n ih =>
    intro cs l r next h
    rw [on_within_succ] at h
    exact soundOperands ih cs l r next h

/-! ## Whole texts -/

theorem denotes_of_ofCall {source : String} (h : Expr.ofCall source = .ok e) :
    Denotes source.toList e.tree :=
  (sound_either (soundOperands_within maxDepth)).of_read_eq_ok h

theorem ofCall_of_denotes {source : String} {t : Tree} (h : Denotes source.toList t) :
    Expr.ofCall source = Expr.ofTree t := by
  obtain ⟨a, w, hcs, ha, hw⟩ := h
  have hcall : call.on source.toList = .bounded (maxDepth + 1) t w := by
    rw [hcs]
    exact ha.on_either maxDepth w
  exact read_of_bounded hcall (Nat.le_succ _) hw

/-- **The calls are read, and nothing else.** A text that denotes a tree is read as this tree if it
has at most `maxDepth` levels, and is refused as too deep otherwise. A text that denotes no tree is
refused as malformed. -/
theorem ofCall_exact (source : String) :
    (∀ t, Denotes source.toList t → Expr.ofCall source =
      if h : t.depth ≤ maxDepth then .ok ⟨t, h⟩ else .error .tooDeep) ∧
    ((∀ t, ¬ Denotes source.toList t) →
      ∃ err, Expr.ofCall source = .error err ∧ err.kind = .malformed) := by
  refine ⟨fun t h => ofCall_of_denotes h, fun hnone => ?_⟩
  cases h : Expr.ofCall source with
  | ok e => exact absurd (denotes_of_ofCall h) (hnone e.tree)
  | error err => exact ⟨err, rfl, kind_of_read_eq_error h⟩

/-- A call with blanks wherever they may stand, and one whose literal is no integer. -/
theorem ofCall_exact_spaced :
    (Denotes " Add ( Number( 2 ),Number(-03) )\n".toList (.node .add (.lit 2) (.lit (-3))) ∧
      Expr.ofCall " Add ( Number( 2 ),Number(-03) )\n" =
        .ok ⟨.node .add (.lit 2) (.lit (-3)), by decide⟩) ∧
    (∀ t, ¬ Denotes "Number(2.5)".toList t) ∧
      ∃ err, Expr.ofCall "Number(2.5)" = .error err ∧ err.kind = .malformed := by
  have hspace : Blanks [' '] := blanks_space
  have htwo : Derives " Number( 2 )".toList (.lit 2) :=
    .number hspace .nil ⟨[' '], false, ['2'], rfl, hspace, rfl, rfl⟩ hspace
  have hthree : Derives "Number(-03)".toList (.lit (-3)) :=
    .number .nil .nil ⟨[], true, ['0', '3'], rfl, .nil, rfl, rfl⟩ .nil
  have hadd : Derives _ (.node .add (.lit 2) (.lit (-3))) :=
    .operator hspace hspace htwo .nil hthree hspace
  have hsum : Denotes " Add ( Number( 2 ),Number(-03) )\n".toList
      (.node .add (.lit 2) (.lit (-3))) := ⟨_, ['\n'], rfl, hadd, by simp [Blanks, isBlank]⟩
  have hnone (t : Tree) : ¬ Denotes "Number(2.5)".toList t := fun h => by
    obtain ⟨place, expected, hread⟩ : ∃ place expected,
      Expr.ofCall "Number(2.5)" = .error (.unreadable .call place expected) := ⟨_, _, rfl⟩
    rw [ofCall_of_denotes h, Expr.ofTree_eq_error] at hread
    cases hread.2
  exact ⟨⟨hsum, (ofCall_exact _).1 _ hsum⟩, hnone, (ofCall_exact _).2 hnone⟩

/-! ## Written calls -/

theorem Derives.blanks_append {cs w : List Char} {t : Tree} (hw : Blanks w) (h : Derives cs t) :
    Derives (w ++ cs) t := by
  cases h with
  | number hw₁ hw₂ hcs hw₃ =>
    rw [← List.append_assoc]
    exact .number (hw.append hw₁) hw₂ hcs hw₃
  | operator hw₁ hw₂ hl hw₃ hr hw₄ =>
    rw [← List.append_assoc]
    exact .operator (hw.append hw₁) hw₂ hl hw₃ hr hw₄

theorem derives_call (t : Tree) : Derives t.call t := by
  induction t with
  | lit v =>
    have hcall : (Tree.lit v).call =
        "Number".toList ++ ("(".toList ++ (Numeral.ofInt64 v ++ ")".toList)) := by
      simp [Tree.call_lit]
    have hv := Derives.number .nil .nil (spells_ofInt64 v) .nil
    rw [hcall]
    simpa only [List.nil_append] using hv
  | node op l r ihl ihr =>
    have hcall : (Tree.node op l r).call = op.constructorName.toList ++ ("(".toList ++
        (l.call ++ (",".toList ++ (([' '] ++ r.call) ++ ")".toList)))) := by
      simp [Tree.call_node]
    have hargs : Derives _ (.node op l r) :=
      .operator .nil .nil ihl .nil (ihr.blanks_append blanks_space) .nil
    rw [hcall]
    simpa only [List.nil_append] using hargs

end Call

/-- **Written calls are read back.** The call of a tree is read as this very tree if it has at most
`maxDepth` levels, and is refused as too deep otherwise; so every expression is read back from its
own call. -/
theorem ofCall_call (t : Tree) :
    Expr.ofCall (String.ofList t.call) =
      (if h : t.depth ≤ maxDepth then .ok ⟨t, h⟩ else .error .tooDeep) ∧
    ∀ e : Expr, Expr.ofCall e.call = .ok e := by
  have hread (t : Tree) : Expr.ofCall (String.ofList t.call) = Expr.ofTree t :=
    Call.ofCall_of_denotes ⟨t.call, [], by simp, Call.derives_call t, .nil⟩
  exact ⟨hread t, fun e => (hread e.tree).trans (Expr.ofTree_tree e)⟩

end ArithTree
