import ArithTree.Proofs.Formula.Language

/-!
# Reading formulas

What the parsers of factors, products and sums do with a text that starts with a derived one.
`Rank.tail` is the rest of a chain after its first operands; `Derives.reads` is the main statement:
where `a` is of rank `k` and denotes `t`, the parser of rank `k` on `a ++ b` goes on with `t` after
`a` (`Reads.ok`), or gives up because `t` has too many levels or `a` too many open groups
(`Reads.tooDeep`). A chain is derived from the left, so the statement leaves open whether the chain
ends with `a`; `tail_of_stops` ends it where no further sign follows.
-/

namespace ArithTree.Formula

open ArithTree.Parser

namespace Rank

/-- The operators that join the operands of a chain. -/
def ops : Rank → List Op
  | .factor => []
  | .product => [.mul, .div]
  | .sum => [.add, .sub]

/-- The parser of a rank, with `n` groups left to open. -/
def parser (n : Nat) : Rank → Parser Expr
  | .factor => Formula.factor (within .formula Formula.sum n)
  | .product => Formula.product (within .formula Formula.sum n)
  | .sum => Formula.sum (within .formula Formula.sum n)

/-- The rest of a chain whose first operands are read. -/
def tail (n : Nat) (k : Rank) (e : Expr) : Parser Expr :=
  chain (step k.ops (k.below.parser n)) e

/-- No sign of a rank comes next. -/
def Stops (k : Rank) (cs : List Char) : Prop :=
  ∀ op : Op, op.rank = k → ¬ op.sign.toList <+: cs.dropWhile isBlank

/-- What may stand after a text of a rank without being read as a part of it, signs of the
rank itself aside. -/
structure Follows (k : Rank) (cs : List Char) : Prop where
  noDigit : NoDigit cs
  stops : k.below.Stops cs

end Rank

variable {k : Rank} {n : Nat} {op : Op} {e : Expr} {w cs : List Char}

theorem on_rank (hk : k ≠ .factor) : (k.parser n).on cs =
    ((k.below.parser n).on cs).andThen fun e rest => (k.tail n e).on rest := by
  cases k with
  | factor => exact absurd rfl hk
  | product => exact on_bind (Rank.factor.parser n) (Rank.product.tail n) cs
  | sum => exact on_bind (Rank.product.parser n) (Rank.sum.tail n) cs

/-! ## One more operand -/

theorem on_sign (hk : op.rank = k) (hw : Blanks w) :
    (sign k.ops).on (w ++ (op.sign.toList ++ cs)) = .done op (.start cs) := by
  subst hk
  cases op <;>
    simp [sign, Rank.ops, Op.rank, Op.sign, hw.dropWhile_append, isBlank, on_word]

theorem on_sign_of_stops (h : k.Stops cs) : (sign k.ops).on cs = .refused := by
  have hop (op : Op) (hk : op.rank = k) : (word op.sign).on (cs.dropWhile isBlank) = .refused :=
    on_word_of_mismatch (h op hk)
  cases k with
  | factor => rfl
  | product => simp [sign, Rank.ops, hop .mul rfl, hop .div rfl]
  | sum => simp [sign, Rank.ops, hop .add rfl, hop .sub rfl]

theorem on_step (hk : op.rank = k) (hw : Blanks w) (l : Expr) :
    (step k.ops (k.below.parser n) l).on (w ++ (op.sign.toList ++ cs)) =
      ((k.below.parser n).on cs).andThen fun r rest => (combine op l r).on rest := by
  rw [step, on_bind, on_sign hk hw, Outcome.done_andThen, Cursor.rest_start, on_bind]

theorem tail_of_stops (h : k.Stops cs) : (k.tail n e).on cs = .done e (.start cs) := by
  refine chain_of_refused ?_
  rw [step, on_bind, on_sign_of_stops h, Outcome.refused_andThen]

/-! ## What follows -/

theorem dropWhile_sign (op : Op) (cs : List Char) :
    (op.sign.toList ++ cs).dropWhile isBlank = op.sign.toList ++ cs := by
  cases op <;> rfl

theorem noDigit_sign (op : Op) (cs : List Char) : NoDigit (op.sign.toList ++ cs) := by
  cases op <;> rintro c ⟨⟩ <;> decide

theorem sign_prefix_sign {op op' : Op} (h : op'.sign.toList <+: op.sign.toList ++ cs) :
    op' = op := by
  obtain ⟨rest, h⟩ := h
  cases op <;> cases op' <;> first | rfl | cases h

theorem stops_factor : Rank.factor.Stops cs := fun op h => by cases op <;> cases h

theorem Rank.Follows.below (h : k.Follows cs) : k.below.Follows cs := by
  refine ⟨h.noDigit, ?_⟩
  cases k <;> exact stops_factor

theorem below_ne (hk : op.rank = k) : k.below ≠ k := by
  subst hk
  cases op <;> decide

/-- After the operands of a rank there may stand a sign of the rank. -/
theorem follows_sign (hk : op.rank = k) (hw : Blanks w) :
    k.Follows (w ++ (op.sign.toList ++ cs)) := by
  refine ⟨.blanks_append hw (noDigit_sign op cs), fun op' hop' h => ?_⟩
  rw [hw.dropWhile_append, dropWhile_sign] at h
  rw [sign_prefix_sign h, hk] at hop'
  exact below_ne hk hop'.symm

/-- Every chain ends before a closing parenthesis and at the end of the text. -/
theorem stops_of_end (hw : Blanks w) (hcs : ∀ c ∈ cs.head?, c = ')') : k.Stops (w ++ cs) := by
  intro op _ ⟨rest, h⟩
  rw [hw.dropWhile_append] at h
  cases cs with
  | nil => cases op <;> cases h
  | cons c cs =>
    obtain rfl := hcs c rfl
    cases op <;> cases h

theorem follows_of_end (hw : Blanks w) (hcs : ∀ c ∈ cs.head?, c = ')') : k.Follows (w ++ cs) := by
  refine ⟨.blanks_append hw fun c hc => ?_, stops_of_end hw hcs⟩
  rw [hcs c hc]
  decide

/-! ## Derived texts -/

/-- The parser of rank `k`, with `n` groups left to open, takes `a` off the text `a ++ b` as `t` and
goes on, unless `t` or the groups of `a` are too deep. -/
structure Reads (k : Rank) (n : Nat) (a : List Char) (t : Tree) (b : List Char) : Prop where
  ok : ∀ e : Expr, e.tree = t → AtMostOpen n a → (k.parser n).on (a ++ b) = (k.tail n e).on b
  tooDeep : ¬ (t.depth ≤ maxDepth ∧ AtMostOpen n a) → (k.parser n).on (a ++ b) = .tooDeep

variable {a b : List Char} {t l r : Tree}

/-- A text that is read within the limits is read as an expression. -/
theorem Reads.done (h : Reads k n a t b) (hb : k.Stops b) (he : e.tree = t)
    (ha : AtMostOpen n a) : (k.parser n).on (a ++ b) = .done e (.start b) := by
  rw [h.ok e he ha, tail_of_stops hb]

theorem reads_literal {v : Int64} (ha : Spells a v) (hb : NoDigit b) :
    Reads .factor n a (.lit v) b := by
  have hflat := AtMostOpen.of_flat (flat_of_spells ha) n
  refine ⟨fun e he _ => ?_, fun h => absurd ⟨by simp [maxDepth], hflat⟩ h⟩
  obtain rfl : e = .number v := Expr.ext he
  rw [tail_of_stops stops_factor, Rank.parser, factor, on_orElse, on_literal_append ha hb,
    Outcome.done_orElse]

/-- No literal starts with a parenthesis, so what it opens is tried as a group. -/
theorem on_factor_open (n : Nat) (hw : Blanks w) (cs : List Char) :
    (Rank.factor.parser n).on (w ++ '(' :: cs) =
      ((within .formula Formula.sum n).on cs).andThen fun e rest =>
        (do blanks; word ")"; return e : Parser Expr).on rest := by
  have hlit : literal.on (w ++ ("(".toList ++ cs)) = .refused :=
    on_literal_of_word (by rintro _ ⟨⟩; decide) rfl hw cs
  have hopen : w ++ '(' :: cs = w ++ ("(".toList ++ cs) := rfl
  rw [hopen, Rank.parser, factor, on_orElse, hlit, Outcome.refused_orElse, group,
    on_blanks_word rfl hw, on_bind]

theorem reads_group {w' : List Char} (hw : Blanks w) (hin : Derives .sum a t) (hw' : Blanks w')
    (ih : ∀ n, Reads .sum n a t (w' ++ ')' :: b)) :
    Reads .factor n (w ++ '(' :: ((a ++ w') ++ [')'])) t b := by
  have hassoc : w ++ '(' :: ((a ++ w') ++ [')']) ++ b = w ++ '(' :: (a ++ (w' ++ ')' :: b)) := by
    simp
  refine ⟨fun e he ha => ?_, fun hlim => ?_⟩ <;> rw [hassoc, on_factor_open n hw]
  · obtain ⟨hn, ha⟩ := (atMostOpen_nested hw hin hw').1 ha
    obtain ⟨m, rfl⟩ := Nat.exists_eq_succ_of_ne_zero (Nat.ne_of_gt hn)
    have hsum : (Formula.sum (within .formula Formula.sum m)).on (a ++ (w' ++ ')' :: b)) =
        .done e (.start (w' ++ ')' :: b)) :=
      (ih m).done (stops_of_end hw' (by simp)) he ha
    have hclose : (do blanks; word ")"; return e : Parser Expr).on (w' ++ (")".toList ++ b)) =
        .done e (.start b) := by
      rw [on_blanks_word rfl hw', on_pure]
    rw [on_within_succ, hsum, Outcome.done_andThen, Cursor.rest_start, tail_of_stops stops_factor]
    exact hclose
  · rw [atMostOpen_nested hw hin hw'] at hlim
    cases n with
    | zero => rw [on_within_zero, Outcome.tooDeep_andThen]
    | succ m =>
      have hsum : (Formula.sum (within .formula Formula.sum m)).on (a ++ (w' ++ ')' :: b)) =
          .tooDeep := (ih m).tooDeep fun h => hlim ⟨h.1, m.succ_pos, h.2⟩
      rw [on_within_succ, hsum, Outcome.tooDeep_andThen]

theorem Reads.one (hk : k ≠ .factor) (hb : k.Follows b) (h : Reads k.below n a t b) :
    Reads k n a t b := by
  refine ⟨fun e he ha => ?_, fun hlim => ?_⟩
  · rw [on_rank hk, h.done hb.stops he ha, Outcome.done_andThen, Cursor.rest_start]
  · rw [on_rank hk, h.tooDeep hlim, Outcome.tooDeep_andThen]

/-- The step that takes one more operand. -/
theorem on_step_of_reads (hk : op.rank = k) (hw : Blanks w) (hb : k.Follows b)
    (h : Reads k.below n a r b) (el er : Expr) (her : er.tree = r) (ha : AtMostOpen n a) :
    (step k.ops (k.below.parser n) el).on (w ++ (op.sign.toList ++ (a ++ b))) =
      (combine op el er).on b := by
  rw [on_step hk hw, h.done hb.stops her ha, Outcome.done_andThen, Cursor.rest_start]

theorem Reads.more (hk : op.rank = k) (hw : Blanks w) (hb : k.Follows b) {a' : List Char}
    (hl : Reads k n a l (w ++ (op.sign.toList ++ (a' ++ b)))) (hr : Reads k.below n a' r b)
    (hopen : AtMostOpen n (a ++ (w ++ (op.sign.toList ++ a'))) ↔ AtMostOpen n a ∧ AtMostOpen n a') :
    Reads k n (a ++ (w ++ (op.sign.toList ++ a'))) (.node op l r) b := by
  have hassoc : a ++ (w ++ (op.sign.toList ++ a')) ++ b =
      a ++ (w ++ (op.sign.toList ++ (a' ++ b))) := by
    simp only [List.append_assoc]
  refine ⟨fun e he ha => ?_, fun hlim => ?_⟩ <;> rw [hassoc]
  · obtain ⟨hal, har⟩ := hopen.1 ha
    have hdepth := e.depth_le
    rw [he, Tree.depth_node] at hdepth
    rw [hl.ok ⟨l, by omega⟩ rfl hal]
    refine chain_of_done ?_ ?_
    · rw [on_step_of_reads hk hw hb hr ⟨l, by omega⟩ ⟨r, by omega⟩ rfl har, on_combine he]
    · cases op <;> simp [Op.sign] <;> omega
  · by_cases h1 : l.depth ≤ maxDepth ∧ AtMostOpen n a
    · rw [hl.ok ⟨l, h1.1⟩ rfl h1.2]
      refine chain_of_tooDeep ?_
      by_cases h2 : r.depth ≤ maxDepth ∧ AtMostOpen n a'
      · rw [on_step_of_reads hk hw hb hr ⟨l, h1.1⟩ ⟨r, h2.1⟩ rfl h2.2]
        refine on_combine_of_lt (Nat.lt_of_not_le fun hle => hlim ⟨hle, hopen.2 ⟨h1.2, h2.2⟩⟩)
      · rw [on_step hk hw, hr.tooDeep h2, Outcome.tooDeep_andThen]
    · exact hl.tooDeep h1

/-- **Derived texts are read.** -/
theorem Derives.reads (h : Derives k a t) (n : Nat) (b : List Char) (hb : k.Follows b) :
    Reads k n a t b := by
  induction h generalizing n b with
  | literal ha => exact reads_literal ha hb.noDigit
  | group hw hin hw' ih =>
    exact reads_group hw hin hw' fun n => ih n _ (follows_of_end hw' (by simp))
  | one hk _ ih => exact (ih n b hb.below).one hk hb
  | more hk hl hw _ ihl ihr =>
    exact .more hk hw hb (ihl n _ (follows_sign hk hw)) (ihr n b hb.below) (atMostOpen_more hl hw)

end ArithTree.Formula
