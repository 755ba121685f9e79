import ArithTree.Proofs.Call.Opening
import ArithTree.Proofs.Formula.Opening
import ArithTree.Proofs.Grammar.Source
import ArithTree.Proofs.Phrase.Opening

/-!
# Runaway nesting

In each style some construct nests in itself: a group of a formula, a phrase behind its article, the
operands of a call. A text that has opened more of them than the limit allows is refused as too deep,
whatever stands behind the last opening (`ofText_of_opens`). `Style.Opens` follows the rules of the
grammars up to the last opening; it describes exactly the texts that end right behind an opening and
go on to a text of the style (`Style.exists_opens_iff`).
-/

namespace ArithTree

open ArithTree.Parser

namespace Style

/-- The whole text `cs` denotes the tree `t`. -/
def Denotes : Style → List Char → Tree → Prop
  | .formula => Formula.Denotes
  | .phrase => Phrase.Denotes
  | .call => Call.Denotes

/-- The text `u` starts a text of the style and has just opened the last of `n` constructs. -/
def Opens : Style → Nat → List Char → Prop
  | .formula => Formula.Opens .sum
  | .phrase => Phrase.Opens
  | .call => Call.Opens

/-- The text ends with what opens a construct: a parenthesis, an article with a gap behind it, or a
constructor name and a parenthesis. -/
def EndsOpen : Style → List Char → Prop
  | .formula, u => ∃ p, u = p ++ ['(']
  | .phrase, u => ∃ p g, Gap g ∧ u = p ++ ("the".toList ++ g)
  | .call, u => ∃ (p : List Char) (op : Op) (w : List Char),
    Blanks w ∧ u = p ++ (op.constructorName.toList ++ (w ++ ['(']))

variable {style : Style} {n : Nat} {u v : List Char} {t : Tree}

/-- A place in a text of the style that is no blank is a place before its last blanks. -/
theorem exists_prefix {L : List Char → Tree → Prop} {c : Char} {p z : List Char}
    (hc : isBlank c = false) (h : ∃ a w, p ++ c :: z = a ++ w ∧ L a t ∧ Blanks w) :
    ∃ z', L (p ++ c :: z') t := by
  obtain ⟨a, w, heq, ha, hw⟩ := h
  rcases append_eq_append_cons heq.symm with ⟨z', rfl⟩ | ⟨_, -, hend⟩
  · exact ⟨z', ha⟩
  · exact absurd (hend ▸ by simp) (hw.not_mem hc)

theorem number_not_opening {p p' w w' : List Char} {op : Op} (hw : Blanks w) (hw' : Blanks w') :
    p ++ ("Number".toList ++ w) ≠ p' ++ (op.constructorName.toList ++ w') := by
  intro h
  -- the last letter of the name decides
  have hlast := congrArg (fun cs => (cs.reverse.dropWhile isBlank).head?) h
  have hrev {w : List Char} (hw : Blanks w) : ∀ c ∈ w.reverse, isBlank c :=
    fun c hc => hw c (List.mem_reverse.1 hc)
  simp only [List.reverse_append, List.append_assoc, List.dropWhile_append_of_pos (hrev hw),
    List.dropWhile_append_of_pos (hrev hw')] at hlast
  cases op <;> cases hlast

theorem exists_opens_of_denotes (hu : style.EndsOpen u) (h : style.Denotes (u ++ v) t) :
    ∃ n, style.Opens n u := by
  cases style with
  | formula =>
    obtain ⟨p, rfl⟩ := hu
    rw [List.append_assoc, List.singleton_append] at h
    obtain ⟨z, hz⟩ := exists_prefix rfl h
    exact hz.exists_opens
  | phrase =>
    obtain ⟨p, g, hg, rfl⟩ := hu
    have hsplit : p ++ ("the".toList ++ g) ++ v = (p ++ ['t']) ++ 'h' :: ('e' :: (g ++ v)) := by simp
    rw [hsplit] at h
    obtain ⟨z, hz⟩ := exists_prefix rfl h
    obtain ⟨n, hn⟩ := hz.exists_opens
    refine ⟨n, ?_⟩
    simpa [Opens] using hn g hg
  | call =>
    obtain ⟨p, op, w, hw, rfl⟩ := hu
    have hsplit : p ++ (op.constructorName.toList ++ (w ++ ['('])) ++ v =
        (p ++ (op.constructorName.toList ++ w)) ++ '(' :: v := by simp
    rw [hsplit] at h
    obtain ⟨z, hz⟩ := exists_prefix rfl h
    rcases hz.exists_opens with ⟨n, hn⟩ | ⟨p', w', hw', heq⟩
    · refine ⟨n, ?_⟩
      simpa [Opens] using hn
    · exact absurd heq.symm (number_not_opening hw' hw)

theorem Opens.endsOpen (h : style.Opens n u) : style.EndsOpen u := by
  cases style with
  | formula => exact Formula.Opens.ends h
  | phrase => exact Phrase.Opens.ends h
  | call => exact Call.Opens.ends h

theorem Opens.exists_denotes (h : style.Opens n u) : ∃ v t, style.Denotes (u ++ v) t := by
  have hwhole {L : List Char → Tree → Prop} (h : ∃ v t, L (u ++ v) t) :
      ∃ v t, ∃ a w, u ++ v = a ++ w ∧ L a t ∧ Blanks w := by
    obtain ⟨v, t, ht⟩ := h
    exact ⟨v, t, u ++ v, [], (List.append_nil _).symm, ht, .nil⟩
  cases style with
  | formula => exact hwhole (Formula.Opens.exists_derives h)
  | phrase => exact hwhole (Phrase.Opens.exists_derives h)
  | call => exact hwhole (Call.Opens.exists_derives h)

/-- What `Opens` describes, without its rules: the ends of texts that go on to a whole one. -/
theorem exists_opens_iff : (∃ n, style.Opens n u) ↔
    style.EndsOpen u ∧ ∃ v t, style.Denotes (u ++ v) t := by
  constructor
  · intro hopens
    obtain ⟨n, h⟩ := hopens
    exact ⟨h.endsOpen, h.exists_denotes⟩
  · intro hstart
    obtain ⟨hu, v, t, h⟩ := hstart
    exact exists_opens_of_denotes hu h

theorem Opens.on_grammar (h : style.Opens n u) (hn : maxDepth < n) (w : List Char) :
    style.grammar.on (u ++ w) = .tooDeep := by
  cases style with
  | formula => exact Formula.Opens.on_parser h hn w
  | phrase => exact Phrase.Opens.on_operand h hn w
  | call => exact Call.Opens.on_either h hn w

end Style

/-- **Runaway nesting is reported as such.** A text of any style that has just opened more constructs
than the limit allows is refused as too deep, whatever comes after the last opening. This is so for
every text that ends right behind an opening and can go on to a whole text, since such a text opens
some number of constructs. -/
theorem ofText_of_opens (style : Style) :
    (∀ u, (∃ n, style.Opens n u) ↔ style.EndsOpen u ∧ ∃ v t, style.Denotes (u ++ v) t) ∧
    ∀ n u w, maxDepth < n → style.Opens n u →
      Expr.ofText style (String.ofList (u ++ w)) = .error .tooDeep := by
  refine ⟨fun u => Style.exists_opens_iff, fun n u w hn h => ?_⟩
  apply read_of_tooDeep
  rw [String.toList_ofList]
  exact h.on_grammar hn w

/-- An opening repeated too often in each style, with something malformed behind it. -/
theorem ofText_of_opens_repeated :
    (maxDepth < 101 ∧ Style.formula.Opens 101 (List.replicate 101 '(') ∧
      Expr.ofText .formula (String.ofList (List.replicate 101 '(' ++ "1 + )".toList)) =
        .error .tooDeep) ∧
    (Style.phrase.Opens 101 ((List.replicate 100 "the sum of ".toList).flatten ++ "the ".toList) ∧
      Expr.ofText .phrase (String.ofList ((List.replicate 100 "the sum of ".toList).flatten ++
        "the ".toList ++ "power of".toList)) = .error .tooDeep) ∧
    Style.call.Opens 101 (List.replicate 101 "Add(".toList).flatten ∧
      Expr.ofText .call (String.ofList ((List.replicate 101 "Add(".toList).flatten ++ [])) =
        .error .tooDeep := by
  have hlt : maxDepth < 101 := by decide
  have groups (n : Nat) : Style.formula.Opens (n + 1) (List.replicate (n + 1) '(') := by
    have hfactor : Formula.Opens .factor (n + 1) (List.replicate (n + 1) '(') := by
      induction n with
      | zero => exact .group .nil
      | succ n ih => exact .inner .nil (.first (by decide) (.first (by decide) ih))
    exact .first (by decide) (.first (by decide) hfactor)
  have phrases (n : Nat) : Phrase.Opens (n + 1)
      ((List.replicate n "the sum of ".toList).flatten ++ "the ".toList) := by
    induction n with
    | zero => exact .article .nil gap_space
    | succ n ih =>
      have hleft : Phrase.Opens _ ([] ++ ("the".toList ++ ([' '] ++ (Op.add.noun.toList ++ _)))) :=
        .left .nil gap_space gap_space gap_space ih
      simpa [Op.noun, List.replicate_succ] using hleft
  have calls (n : Nat) : Call.Opens (n + 1)
      (List.replicate (n + 1) "Add(".toList).flatten := by
    induction n with
    | zero => exact @Call.Opens.operator .add [] [] .nil .nil
    | succ n ih =>
      have hleft : Call.Opens _ ([] ++ (Op.add.constructorName.toList ++ _)) := .left .nil .nil ih
      simpa [Op.constructorName, List.replicate_succ] using hleft
  exact ⟨⟨hlt, groups 100, (ofText_of_opens .formula).2 101 _ _ hlt (groups 100)⟩,
    ⟨phrases 100, (ofText_of_opens .phrase).2 101 _ _ hlt (phrases 100)⟩,
    calls 100, (ofText_of_opens .call).2 101 _ _ hlt (calls 100)⟩

end ArithTree
