import ArithTree.Proofs.Formula.Recognition
import ArithTree.Proofs.Grammar.Candid
import ArithTree.Proofs.Numeral.Spelling
import Mathlib

/-!
# Where formulas go wrong

A text that is no formula is refused with a place. `Viable u` says that the text `u` can be continued
to a formula of any depth; `ofFormula_place` says that the place is the end of the longest viable
start of the text, so the character there is the first that cannot be right.

* Every report leads on (`guides_formula`): what stands before it can be continued to a text of the
  rank that is being read. This follows the rules of the grammar.
* Nothing behind the furthest report has a part in the refusal, since the parsers of formulas are
  candid (`candid_formula`). If a longer start could be continued, the continued text would be refused
  too, but it is a formula.

A run of digits leads on only if it stays within the range of 64-bit integers, whence `RunsFit`.
-/

namespace ArithTree.Formula

open ArithTree.Frontier ArithTree.Parser

/-- Every longest run of digits in the text is in the range of 64-bit integers. -/
def RunsFit (cs : List Char) : Prop :=
  ∀ before run after, cs = before ++ (run ++ after) → NoDigit before.reverse →
    Numeral.isRun run → NoDigit after → InRange (Numeral.toNat run)

/-- The text can be continued to one that denotes a tree. -/
def Viable (u : List Char) : Prop := ∃ v t, Denotes (u ++ v) t

/-! ## Runs of digits -/

/-- Every run of digits anywhere in the text is in the range of 64-bit integers. -/
def DigitsFit (cs : List Char) : Prop :=
  ∀ run, run <:+: cs → Numeral.isRun run → InRange (Numeral.toNat run)

theorem DigitsFit.of_append {a b : List Char} (h : DigitsFit (a ++ b)) : DigitsFit b :=
  fun run hrun => h run (hrun.trans (List.suffix_append a b).isInfix)

/-- Eighteen digits are always in range. -/
theorem RunsFit.of_length_le {cs : List Char} (h : cs.length ≤ 18) : RunsFit cs := by
  rintro before run after rfl - hrun -
  have hlen : run.length ≤ 18 := by
    simp only [List.length_append] at h
    omega
  have hlt := Numeral.toNat_lt (Numeral.isRun_iff.1 hrun).2
  have hpow : 10 ^ run.length ≤ 10 ^ 18 := Nat.pow_le_pow_right (by decide) hlen
  unfold InRange
  omega

/-- A run of digits is a part of a longest one, and its value is no greater. -/
theorem RunsFit.digitsFit {cs : List Char} (h : RunsFit cs) : DigitsFit cs := by
  rintro run ⟨p, q, rfl⟩ hrun
  have hp : p.rdropWhile Char.isDigit ++ p.rtakeWhile Char.isDigit = p :=
    List.rdropWhile_append_rtakeWhile
  have hq : q.takeWhile Char.isDigit ++ q.dropWhile Char.isDigit = q :=
    List.takeWhile_append_dropWhile
  obtain ⟨hne, hdigits⟩ := Numeral.isRun_iff.1 hrun
  have hlongest : Numeral.isRun
      (p.rtakeWhile Char.isDigit ++ (run ++ q.takeWhile Char.isDigit)) := by
    refine Numeral.isRun_iff.2 ⟨by simp [hne], fun c hc => ?_⟩
    rcases List.mem_append.1 hc with hc | hc
    · exact List.mem_rtakeWhile_imp hc
    rcases List.mem_append.1 hc with hc | hc
    · exact hdigits c hc
    · exact List.mem_takeWhile_imp hc
  have hsplit : p ++ run ++ q = p.rdropWhile Char.isDigit ++
      (p.rtakeWhile Char.isDigit ++ (run ++ q.takeWhile Char.isDigit) ++
        q.dropWhile Char.isDigit) := by
    conv_lhs => rw [← hp, ← hq]
    simp only [List.append_assoc]
  have hbefore : NoDigit (p.rdropWhile Char.isDigit).reverse := by
    rw [List.rdropWhile, List.reverse_reverse]
    exact noDigit_dropWhile _
  have hfit := h _ _ _ hsplit hbefore hlongest (noDigit_dropWhile q)
  have hle := (Numeral.toNat_le_append run (q.takeWhile Char.isDigit)).trans
    (Numeral.toNat_le_append_left (p.rtakeWhile Char.isDigit) _)
  unfold InRange at *
  omega

theorem DigitsFit.exists_value {cs run : List Char} (h : DigitsFit cs) (hin : run <:+: cs)
    (hrun : Numeral.isRun run) (negative : Bool) :
    ∃ v : Int64, v.toInt = Numeral.signed negative (Numeral.toNat run) := by
  refine ⟨.ofInt (Numeral.signed negative (Numeral.toNat run)), toInt_ofInt ?_⟩
  have hfit := h run hin hrun
  unfold InRange at *
  cases negative
  · exact hfit
  · simp only [Numeral.signed, if_true]
    omega

/-! ## Candid parsers -/

theorem sign_toList (op : Op) : ∃ c, op.sign.toList = [c] := by
  cases op <;> exact ⟨_, rfl⟩

theorem candid_sign {k : Rank} (hk : k ≠ .factor) : Candid (sign k.ops) := by
  refine candid_oneOf (by cases k <;> simp_all [Rank.ops]) fun p hp => ?_
  obtain ⟨op, -, rfl⟩ := List.mem_map.1 hp
  obtain ⟨c, hc⟩ := sign_toList op
  exact candid_blanks_word hc (candid_pure op)

theorem candid_factor {inner : Parser Expr} (h : Candid inner) : Candid (factor inner) := by
  refine candid_literal.orElse (candid_blanks_word rfl (h.bind fun e => ?_))
  exact candid_blanks_word rfl (candid_pure e)

theorem candid_chained {k : Rank} (hk : k ≠ .factor) {operand : Parser Expr} (h : Candid operand) :
    Candid (chained k.ops operand) := by
  refine h.bind fun first => candid_chain (fun left => ?_) first
  exact (candid_sign hk).bind fun op => h.bind fun right => candid_combine op left right

theorem candid_sum {inner : Parser Expr} (h : Candid inner) : Candid (Formula.sum inner) :=
  candid_chained (k := .sum) (by decide) (candid_chained (k := .product) (by decide) (candid_factor h))

theorem candid_formula : Candid formula := candid_sum (candid_within (fun _ => candid_sum) maxDepth)

/-! ## Reports that lead on -/

/-- What stands before the last `left` characters can be continued to a text of rank `k`. -/
def Leads (k : Rank) (cs : List Char) (left : Nat) : Prop :=
  ∃ u rest v t, cs = u ++ rest ∧ rest.length = left ∧ Derives k (u ++ v) t

/-- All reports of the parser lead on to texts of rank `k`. -/
def Guides (p : Parser Expr) (k : Rank) : Prop :=
  ∀ cs, DigitsFit cs → (p.seen cs).At (Leads k cs)

theorem derives_one (k : Rank) : Derives k ['1'] (.lit 1) :=
  .of_factor (.literal ⟨[], false, ['1'], rfl, .nil, rfl, rfl⟩)

section
variable {j k : Rank} {n left : Nat} {op : Op} {p a b cs w m : List Char} {l t : Tree}

theorem Leads.intro {u rest : List Char} (v : List Char) (t : Tree) (h : Derives k (u ++ v) t) :
    Leads k (u ++ rest) rest.length :=
  ⟨u, rest, v, t, rfl, rfl, h⟩

/-- What leads on behind a part of a text leads on from its start if the part can stand there. -/
theorem Leads.behind (h : Leads j b left)
    (hpart : ∀ x t, Derives j x t → ∃ v t', Derives k (p ++ (x ++ v)) t') :
    Leads k (p ++ b) left := by
  obtain ⟨u, rest, v, t, rfl, rfl, hder⟩ := h
  obtain ⟨v', t', hder'⟩ := hpart _ _ hder
  rw [← List.append_assoc]
  exact .intro (v ++ v') t' (by simpa using hder')

theorem at_seen_sign {P : Nat → Prop} (ops : List Op) (hw : Blanks w) (hm : NoBlank m)
    (hmiss : P m.length) : ((sign ops).seen (w ++ m)).At P := by
  induction ops with
  | nil => exact at_none
  | cons op ops ih =>
    refine at_seen_orElse (at_seen_blanks_word hw hm hmiss fun rest _ => ?_) fun _ => ih
    exact at_none

/-- Digits in range are taken, and one more digit could follow wherever they end. -/
theorem at_seen_digits {P : Nat → Prop} {cs : List Char} (negative : Bool) (hfit : DigitsFit cs)
    (hnone : P cs.length)
    (hrun : ∀ run rest, cs = run ++ rest → Numeral.isRun run → P rest.length) :
    ((digits >>= ofDigits negative).seen cs).At P := by
  have hsplit := (List.takeWhile_append_dropWhile (p := Char.isDigit) (l := cs)).symm
  refine at_seen_bind ?_ fun run next hdone => ?_
  · rw [seen_digits]
    refine at_some.2 ?_
    by_cases hnil : cs.takeWhile Char.isDigit = []
    · rw [hnil, List.nil_append] at hsplit
      exact hsplit ▸ hnone
    · exact hrun _ _ hsplit (Numeral.isRun_iff.2 ⟨hnil, fun c hc => List.mem_takeWhile_imp hc⟩)
  · obtain ⟨rfl, hds, -⟩ := on_digits_eq_done.1 hdone
    obtain ⟨v, hv⟩ := hfit.exists_value (List.prefix_append _ _).isInfix hds negative
    unfold ofDigits
    rw [narrow?_eq_some_iff.2 hv]
    exact at_none

theorem guides_literal : Guides literal .factor := by
  intro cs hfit
  refine at_seen_bind ?_ fun v next _ => at_none
  obtain ⟨w, m, hw, hm, rfl⟩ := exists_blanks_append cs
  have hone (negative : Bool) : Derives .factor (w ++ minus negative ++ ['1'])
      (.lit (if negative then -1 else 1)) := by
    rw [List.append_assoc]
    exact .literal ⟨w, negative, ['1'], rfl, hw, rfl, by cases negative <;> rfl⟩
  unfold integer
  rw [seen_blanks_append hw hm]
  refine at_seen_bind ?_ fun negative next hsign => ?_
  · refine at_seen_orElse (at_seen_bind (at_seen_word ?_) fun _ _ _ => at_none) fun _ => at_none
    exact .intro ['1'] _ (by simpa [minus] using hone false)
  · obtain rfl := on_optional_minus_eq_done hsign
    rw [← List.append_assoc] at hfit ⊢
    refine at_seen_digits negative hfit.of_append (.intro _ _ (hone negative))
      fun run rest hrest hrun => ?_
    rw [hrest] at hfit ⊢
    obtain ⟨v, hv⟩ := hfit.of_append.exists_value (List.prefix_append _ _).isInfix hrun negative
    rw [← List.append_assoc]
    exact .intro [] (.lit v) (.literal ⟨w, negative, run, by simp, hw, hrun, hv⟩)

theorem guides_group {inner : Parser Expr} (hs : Sound inner .sum) (h : Guides inner .sum) :
    Guides (group inner) .factor := by
  intro cs hfit
  obtain ⟨w, m, hw, hm, rfl⟩ := exists_blanks_append cs
  -- whatever leads on inside the group does so before its closing parenthesis
  have hgroup (x : List Char) (t : Tree) (hx : Derives .sum x t) :
      Derives .factor (w ++ ['('] ++ (x ++ [')'])) t := by
    simpa using Derives.group hw hx .nil
  refine at_seen_blanks_word hw hm ?_ fun rest hopen => ?_
  · exact .intro ['(', '1', ')'] _ (by simpa using hgroup _ _ (derives_one .sum))
  have hcs : w ++ m = w ++ ['('] ++ rest := by
    rw [hopen, List.append_assoc]
    rfl
  rw [hcs] at hfit ⊢
  have hinner := h rest hfit.of_append
  refine at_seen_bind (hinner.mono fun left hleft => ?_) fun e next hdone => ?_
  · exact hleft.behind fun x t hx => ⟨_, _, hgroup x t hx⟩
  · obtain ⟨a, rfl, ha⟩ := hs rest e next hdone
    obtain ⟨w', m', hw', hm', hnext⟩ := exists_blanks_append next.rest
    rw [hnext]
    refine at_seen_blanks_word hw' hm' ?_ fun _ _ => at_none
    rw [← List.append_assoc, ← List.append_assoc]
    exact .intro [')'] e.tree (by simpa using Derives.group hw ha hw')

theorem guides_factor {inner : Parser Expr} (hs : Sound inner .sum) (h : Guides inner .sum) :
    Guides (factor inner) .factor := fun cs hfit =>
  at_seen_orElse (guides_literal cs hfit) fun _ => guides_group hs h cs hfit

/-- While a chain is read, it leads on to a longer one. -/
theorem guides_step (hk : k ≠ .factor) (h : Guides (k.below.parser n) k.below) (ha : Derives k a l)
    (hfit : DigitsFit cs) (e : Expr) :
    ((step k.ops (k.below.parser n) e).seen cs).At (Leads k (a ++ cs)) := by
  obtain ⟨op, hop⟩ : ∃ op : Op, op.rank = k := by
    cases k with
    | factor => exact absurd rfl hk
    | product => exact ⟨.mul, rfl⟩
    | sum => exact ⟨.add, rfl⟩
  refine at_seen_bind ?_ fun op next hsign => ?_
  · obtain ⟨w, m, hw, hm, rfl⟩ := exists_blanks_append cs
    refine at_seen_sign k.ops hw hm ?_
    rw [← List.append_assoc]
    refine .intro (op.sign.toList ++ ['1']) (.node op l (.lit 1)) ?_
    simpa using Derives.more hop ha hw (derives_one k.below)
  · obtain ⟨hmem, w, hw, rfl⟩ := mem_of_on_sign hsign
    have hright := h next.rest ((List.append_assoc w _ _ ▸ hfit).of_append)
    have hassoc : a ++ (w ++ (op.sign.toList ++ next.rest)) =
        a ++ (w ++ op.sign.toList) ++ next.rest := by simp
    rw [hassoc]
    refine at_seen_bind (hright.mono fun left hleft => hleft.behind fun x r hx => ?_)
      fun r _ _ => ?_
    · exact ⟨[], .node op l r, by simpa using Derives.more (rank_of_mem_ops hmem) ha hw hx⟩
    · rw [seen_combine]
      exact at_none

theorem parser_eq (hk : k ≠ .factor) (n : Nat) :
    k.parser n = chained k.ops (k.below.parser n) := by
  cases k with
  | factor => exact absurd rfl hk
  | product => rfl
  | sum => rfl

theorem guides_chained (hk : k ≠ .factor) (hs : Sound (k.below.parser n) k.below)
    (h : Guides (k.below.parser n) k.below) : Guides (k.parser n) k := by
  intro cs hfit
  have hbelow (x : List Char) (t : Tree) (hx : Derives k.below x t) :
      Derives k ([] ++ (x ++ [])) t := by simpa using hx.of_below
  rw [parser_eq hk]
  refine at_seen_bind ((h cs hfit).mono fun left hleft => ?_) fun e next hdone => ?_
  · exact hleft.behind (p := []) fun x t hx => ⟨_, t, hbelow x t hx⟩
  -- what is read so far is always a shorter chain
  · refine at_seen_chain (Q := fun e rest => ∃ a, cs = a ++ rest ∧ Derives k a e.tree) ?_ ?_ ?_
    · rintro l rest e next ⟨a, rfl, hl⟩ hstep
      obtain ⟨b, rfl, hder⟩ := derives_step hs hl hstep
      exact ⟨a ++ b, by simp, hder⟩
    · rintro l rest ⟨a, rfl, hl⟩
      exact guides_step hk h hl hfit.of_append l
    · obtain ⟨a, ha, hder⟩ := hs cs e next hdone
      exact ⟨a, ha, hder.of_below⟩

theorem guides_of_within (h : Guides (within .formula Formula.sum n) .sum) :
    Guides (Rank.sum.parser n) .sum := by
  have hf : Guides (Rank.factor.parser n) .factor := guides_factor (sound_within n) h
  have hp : Guides (Rank.product.parser n) .product :=
    guides_chained (by decide) (sound_of_rank .factor n) hf
  exact guides_chained (by decide) (sound_of_rank .product n) hp

theorem guides_within (n : Nat) : Guides (within .formula Formula.sum n) .sum := by
  induction n with
  | zero => exact fun _ _ => at_none
  | succ n ih =>
    intro cs hfit
    refine at_seen_orElse (guides_of_within ih cs hfit) fun _ => at_some.2 ?_
    exact .intro (u := []) ['1'] _ (derives_one .sum)

theorem guides_formula : Guides formula .sum := guides_of_within (guides_within maxDepth)

end

/-! ## The place of a refusal -/

section
variable {cs : List Char}

/-- Whatever is reported about a whole text, what stands before it is viable. -/
theorem at_seen_whole (hfit : DigitsFit cs) : (formula.whole.seen cs).At fun left =>
    ∃ u rest, cs = u ++ rest ∧ rest.length = left ∧ Viable u := by
  refine at_seen_bind ((guides_formula cs hfit).mono ?_) fun e next hdone => ?_
  · rintro left ⟨u, rest, v, t, hcs, hlen, hder⟩
    exact ⟨u, rest, hcs, hlen, v, t, _, [], (List.append_nil _).symm, hder, .nil⟩
  · obtain ⟨a, rfl, ha⟩ := sound_of_rank .sum maxDepth cs e next hdone
    obtain ⟨w, m, hw, hm, hnext⟩ := exists_blanks_append next.rest
    rw [hnext, seen_blanks_append hw hm]
    refine at_seen_bind (at_seen_endOfText ?_) fun _ _ _ => at_none
    exact ⟨a ++ w, m, (List.append_assoc ..).symm, rfl, [], e.tree, a, w, List.append_nil _, ha, hw⟩

theorem whole_ne_refused {t : Tree} (h : Denotes cs t) : formula.whole.on cs ≠ .refused := by
  intro hrefused
  have hread : Expr.ofFormula (String.ofList cs) = formula.read .formula cs := by
    rw [ofFormula_eq, String.toList_ofList]
    rfl
  have hdenotes : Denotes (String.ofList cs).toList t := by rwa [String.toList_ofList]
  rw [ofFormula_of_denotes hdenotes] at hread
  rcases read_eq formula .formula cs with ⟨_, _, hon, -⟩ | ⟨hon, -⟩ | ⟨-, place, expected, herr⟩
  · rw [hrefused] at hon
    cases hon
  · rw [hrefused] at hon
    cases hon
  · rw [herr] at hread
    split at hread <;> cases hread

/-- **The place of a refusal is the end of the longest viable start of the text.** If no run of digits
is out of range, the text is right up to the place and nothing that goes on as the text does can be
right; line and column count from one. -/
theorem ofFormula_place {source : String} {place : Place} {expected : List Expected}
    (hfit : RunsFit source.toList)
    (h : Expr.ofFormula source = .error (.unreadable .formula place expected)) :
    ∃ u, u <+: source.toList ∧ Viable u ∧
      (∀ u', u' <+: source.toList → Viable u' → u'.length ≤ u.length) ∧
      place = ⟨1 + u.count '\n', 1 + (u.reverse.takeWhile (· != '\n')).length⟩ := by
  have hread : Expr.ofFormula source = formula.read .formula source.toList := rfl
  obtain ⟨hrefused, hplace⟩ := read_eq_unreadable (hread ▸ h)
  have hcandid := candidRefusal_whole candid_formula source.toList
  obtain ⟨r, hr⟩ := Option.ne_none_iff_exists'.1 (hcandid.reported hrefused)
  obtain ⟨u, rest, hu, hrest, hviable⟩ := at_seen_whole hfit.digitsFit r hr
  refine ⟨u, ⟨rest, hu.symm⟩, hviable, ?_, ?_⟩
  · rintro u' ⟨rest', hu'⟩ ⟨v, t, hder⟩
    by_contra hlt
    -- the formula that a longer start leads to looks the same up to the report
    refine whole_ne_refused hder (hcandid.refused (u' ++ v) hrefused ?_)
    have hleft : source.toList.length + 1 - r.left = u.length + 1 := by
      rw [hu, List.length_append]
      omega
    rw [hr]
    refine at_some.2 ?_
    rw [hleft, ← hu', List.take_append_of_le_length (by omega),
      List.take_append_of_le_length (by omega)]
  · have hleft : source.toList.length - r.left = u.length := by
      rw [hu, List.length_append]
      omega
    rw [hplace, hr, Frontier.place, hleft, hu, List.take_left, Place.after, Place.mk.injEq]
    exact ⟨Nat.add_comm .., Nat.add_comm ..⟩

/-- The second of two signs is one too many. -/
theorem ofFormula_place_second_sign :
    ∃ u, u <+: "1 +\n* 2".toList ∧ Viable u ∧
      (∀ u', u' <+: "1 +\n* 2".toList → Viable u' → u'.length ≤ u.length) ∧
      (⟨2, 1⟩ : Place) = ⟨1 + u.count '\n', 1 + (u.reverse.takeWhile (· != '\n')).length⟩ :=
  ofFormula_place (.of_length_le (by decide))
    (show Expr.ofFormula "1 +\n* 2" =
      .error (.unreadable .formula ⟨2, 1⟩ [.word "(", .word "-", .digit]) by cbv)

end

end ArithTree.Formula
