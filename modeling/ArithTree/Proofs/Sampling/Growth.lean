import ArithTree.Proofs.Arena.Listing
import ArithTree.Proofs.Evaluation.InPlace
import ArithTree.Sampler
import Mathlib.Logic.Relation

/-!
# How samplers grow trees

`Growth.Yields p m d post`: the steps `m` on the draft `d` are never refused, and what they give is as
`post` says, unless some draw takes more words than the patience `p` allows. `Grown levels t` is what
is known of the trees: literals lie between one and ten, and what divides was tested or is such a
literal. `grow_yields` goes through the recursion of the sampler with this contract. The draft stays
sound through it, so the test of a divisor in the draft is a test of its tree, and no operator is
refused.
-/

namespace ArithTree

namespace Random

variable {σ : Type} [Source σ] {n : Nat} {pos : 0 < n} {patience : Nat}

/-- The states of a source from `s` on. -/
def Later : σ → σ → Prop := Relation.ReflTransGen fun s s' => (Source.next s).2 = s'

/-- From the state `s` on, there is a draw of an operator or of a literal that the patience is not
enough for. -/
def RunsOut (patience : Nat) (s : σ) : Prop :=
  ∃ s', Later s s' ∧
    (below 4 (Nat.succ_pos 3) patience s' = none ∨ below 10 (Nat.succ_pos 9) patience s' = none)

theorem RunsOut.of_later {s s' : σ} (hs : Later s s') (h : RunsOut patience s') :
    RunsOut patience s := by
  obtain ⟨s'', hs', hnone⟩ := h
  exact ⟨s'', hs.trans hs', hnone⟩

/-- A draw takes the next word or goes on after it. -/
theorem below_succ (s : σ) : below n pos (patience + 1) s =
    if (Source.next s).1.toNat * n % UInt64.size ≤ acceptance n then
      some (⟨(Source.next s).1.toNat * n / UInt64.size, upper_lt pos _⟩, (Source.next s).2)
    else below n pos patience (Source.next s).2 := by
  change (if (Source.next s).1.toNat * n % UInt64.size ≤ acceptance n then _ else _ :
    Draw σ (Fin n)) _ = _
  by_cases hw : (Source.next s).1.toNat * n % UInt64.size ≤ acceptance n
  · rw [if_pos hw, if_pos hw]
    rfl
  · rw [if_neg hw, if_neg hw]
    rfl

theorem later_of_below {s s' : σ} {k : Fin n} (h : below n pos patience s = some (k, s')) :
    Later s s' := by
  induction patience generalizing s with
  | zero => cases h
  | succ patience ih =>
    have hnext : Later s (Source.next s).2 := .single rfl
    rw [below_succ] at h
    split at h
    · cases h
      exact hnext
    · exact hnext.trans (ih h)

end Random

open ArithTree.Random

/-! ## The trees -/

/-- The values of the literals that are drawn. -/
def IsDrawn (v : Int64) : Prop := 1 ≤ v.toInt ∧ v.toInt ≤ 10

/-- The tree has a value that can divide. -/
def Tree.CanDivide (t : Tree) : Prop := ∃ v, t.eval .standard = .ok v ∧ v ≠ 0

/-- The trees that are grown with a number of levels. -/
inductive Grown : Nat → Tree → Prop
  | literal {levels : Nat} {v : Int64} : levels ≤ 1 → IsDrawn v → Grown levels (.lit v)
  | operator {levels : Nat} {op : Op} {l r : Tree} : Grown (levels + 1) l → Grown (levels + 1) r →
    (op = .div → r.CanDivide) → Grown (levels + 2) (.node op l r)
  | quotient {levels : Nat} {l : Tree} {v : Int64} : Grown (levels + 1) l → IsDrawn v →
    Grown (levels + 2) (.node .div l (.lit v))

theorem Grown.depth_eq {levels : Nat} {t : Tree} (h : Grown levels t) :
    t.depth = max 1 levels := by
  induction h with
  | literal hle _ => rw [Tree.depth_lit]; omega
  | operator _ _ _ ihl ihr => rw [Tree.depth_node, ihl, ihr]; omega
  | quotient _ _ ihl => rw [Tree.depth_node, ihl, Tree.depth_lit]; omega

/-! ## Contracts -/

namespace Growth

variable {σ α β : Type} [Source σ] {p : Nat} {d : Draft} {m : Growth σ α} {f : α → Growth σ β}
  {P : α → Draft → Prop} {Q : β → Draft → Prop}

/-- Steps that are never refused. They give what `post` says, or a draw runs out of patience. -/
structure Yields (p : Nat) (m : Growth σ α) (d : Draft) (post : α → Draft → Prop) : Prop where
  ends : ∀ s out s', m d s = some (out, s') →
    Later s s' ∧ ∃ a d', out = .ok (a, d') ∧ post a d'
  runsOut : ∀ s, m d s = none → RunsOut p s

/-- Steps that draw nothing. -/
theorem Yields.of_eq {a : α} {d' : Draft} (hm : ∀ s, m d s = some (.ok (a, d'), s))
    (h : P a d') : Yields p m d P where
  ends := by
    intro s out s' hs
    rw [hm] at hs
    cases hs
    exact ⟨.refl, a, d', rfl, h⟩
  runsOut := by
    intro s hs
    rw [hm] at hs
    cases hs

omit [Source σ] in
theorem bind_apply (s : σ) : (m >>= f) d s =
    match m d s with
    | none => none
    | some (.ok (a, d'), s') => f a d' s'
    | some (.error e, s') => some (.error e, s') := by
  change Option.bind (m d s) _ = _
  cases m d s with
  | none => rfl
  | some result =>
    obtain ⟨out, s'⟩ := result
    cases out <;> rfl

theorem Yields.bind (hm : Yields p m d P) (hf : ∀ a d', P a d' → Yields p (f a) d' Q) :
    Yields p (m >>= f) d Q where
  ends := by
    intro s out s' h
    rw [bind_apply] at h
    cases hs : m d s with
    | none => rw [hs] at h; cases h
    | some result =>
      obtain ⟨first, s₁⟩ := result
      obtain ⟨hlater, a, d', rfl, ha⟩ := hm.ends s first s₁ hs
      rw [hs] at h
      obtain ⟨hlater', hout⟩ := (hf a d' ha).ends s₁ out s' h
      exact ⟨hlater.trans hlater', hout⟩
  runsOut := by
    intro s h
    rw [bind_apply] at h
    cases hs : m d s with
    | none => exact hm.runsOut s hs
    | some result =>
      obtain ⟨first, s₁⟩ := result
      obtain ⟨hlater, a, d', rfl, ha⟩ := hm.ends s first s₁ hs
      rw [hs] at h
      exact ((hf a d' ha).runsOut s₁ h).of_later hlater

theorem Yields.mono {P P' : α → Draft → Prop} (hm : Yields p m d P)
    (h : ∀ a d', P a d' → P' a d') : Yields p m d P' where
  ends := by
    intro s out s' hs
    obtain ⟨hlater, a, d', hout, ha⟩ := hm.ends s out s' hs
    exact ⟨hlater, a, d', hout, h a d' ha⟩
  runsOut := hm.runsOut

/-- A draw leaves the draft as it is. -/
theorem yields_below {n : Nat} {pos : 0 < n}
    (hout : ∀ s : σ, below n pos p s = none → RunsOut p s) :
    Yields p (liftM (below n pos p : Draw σ (Fin n)) : Growth σ (Fin n)) d fun _ d' => d' = d := by
  have lift_apply (s : σ) : (liftM (below n pos p : Draw σ (Fin n)) : Growth σ (Fin n)) d s =
      (below n pos p s).map fun drawn => (.ok (drawn.1, d), drawn.2) := by
    change Option.bind (Option.bind (below n pos p s) _) _ = _
    cases below n pos p s <;> rfl
  constructor
  case ends =>
    intro s out s' h
    rw [lift_apply, Option.map_eq_some_iff] at h
    obtain ⟨⟨k, s₁⟩, hk, h⟩ := h
    cases h
    exact ⟨later_of_below hk, k, d, rfl, rfl⟩
  case runsOut =>
    intro s h
    rw [lift_apply, Option.map_eq_none_iff] at h
    exact hout s h

end Growth

/-! ## Samplers -/

namespace Sampler

open Growth

variable {σ : Type} [Source σ] {p : Nat} {d : Draft}

/-- What growing a tree leaves: a sound draft with nothing but new nodes, and the tree there. -/
structure Adds (d : Draft) (t : Tree) (h : Handle) (d' : Draft) : Prop where
  sound : d'.Sound
  grown : d.Extends d'
  holds : d'.Holds h t

theorem isDrawn_ofNat (k : Fin 10) : IsDrawn (Int64.ofNat (k.val + 1)) := by
  have hk := k.isLt
  have hint : (Int64.ofNat (k.val + 1)).toInt = k.val + 1 := by
    rw [Int64.toInt_ofNat_of_lt (by omega)]
    rfl
  constructor <;> omega

theorem literal_yields (hs : d.Sound) :
    Yields p (literal p : Growth σ Handle) d fun h d' => ∃ v, IsDrawn v ∧ Adds d (.lit v) h d' := by
  refine Yields.bind (yields_below fun s h => ⟨s, .refl, .inr h⟩) ?_
  rintro k _ rfl
  refine Yields.of_eq (fun s => rfl) ⟨_, isDrawn_ofNat k, hs.lit _, .push _ _, ?_⟩
  exact Draft.holds_push (Draft.treeAt?_push_lit _ _)

theorem literal_grown {levels : Nat} (hs : d.Sound) (hle : levels ≤ 1) :
    Yields p (literal p : Growth σ Handle) d fun h d' => ∃ t, Grown levels t ∧ Adds d t h d' := by
  refine (literal_yields hs).mono ?_
  rintro h d' ⟨v, hv, hadds⟩
  exact ⟨_, .literal hle hv, hadds⟩

theorem operator_yields : Yields p (operator p : Growth σ Op) d fun _ d' => d' = d := by
  refine Yields.bind (yields_below fun s h => ⟨s, .refl, .inl h⟩) ?_
  rintro k _ rfl
  exact Yields.of_eq (fun s => rfl) rfl

theorem canDivide_iff {h : Handle} {t : Tree} (ht : d.Holds h t) :
    d.canDivide h ↔ t.CanDivide := by
  rw [Draft.canDivide, Node.evalAt_eq .standard ht.2, Tree.CanDivide]
  cases t.eval .standard with
  | ok v => simp
  | error e => simp

theorem join_yields {op : Op} {l r : Handle} {t u : Tree} (hs : d.Sound) (hl : d.Holds l t)
    (hr : d.Holds r u) (hle : (Tree.node op t u).depth ≤ maxDepth) :
    Yields p (join op l r : Growth σ Handle) d (Adds d (.node op t u)) := by
  have hok : d.combine op l r = .ok (d.push (.branch op l.index r.index)) := by
    rw [Draft.combine_eq_ok, hs.depthOf_branch hl hr]
    exact ⟨⟨hl.1, hr.1⟩, hle, rfl⟩
  have hjoin (s : σ) : (join op l r : Growth σ Handle) d s =
      some (.ok (d.push (.branch op l.index r.index)), s) := by
    rw [← hok]
    rfl
  refine Yields.of_eq hjoin ⟨hs.branch hl hr hle, .push d _, ?_⟩
  exact Draft.holds_push (Draft.treeAt?_push_branch hl hr)

/-- A divisor stays if it can divide, and otherwise a literal takes its place. -/
theorem divisor_yields {h : Handle} {t : Tree} (hs : d.Sound) (ht : d.Holds h t) :
    Yields p (divisor p h : Growth σ Handle) d fun h' d' =>
      ∃ u, Adds d u h' d' ∧ (u = t ∧ t.CanDivide ∨ ∃ v, IsDrawn v ∧ u = .lit v) := by
  have hget : Yields p (get : Growth σ Draft) d fun a d' => a = d ∧ d' = d :=
    Yields.of_eq (fun s => rfl) ⟨rfl, rfl⟩
  refine Yields.bind hget ?_
  rintro _ _ ⟨rfl, rfl⟩
  split
  · rename_i hdivide
    exact Yields.of_eq (fun s => rfl) ⟨t, ⟨hs, .refl _, ht⟩, .inl ⟨rfl, (canDivide_iff ht).1 hdivide⟩⟩
  · refine (literal_yields hs).mono ?_
    rintro h' d' ⟨v, hv, hadds⟩
    exact ⟨_, hadds, .inr ⟨v, hv, rfl⟩⟩

theorem settle_yields {levels : Nat} {op : Op} {h : Handle} {t u : Tree} (hs : d.Sound)
    (hu : d.Holds h u) (ht : Grown (levels + 1) t) (hgrown : Grown (levels + 1) u) :
    Yields p (settle p op h : Growth σ Handle) d fun h' d' =>
      ∃ u', Grown (levels + 2) (.node op t u') ∧ Adds d u' h' d' := by
  unfold settle
  split
  · rename_i hop
    subst hop
    refine (divisor_yields hs hu).mono ?_
    rintro h' d' ⟨u', hadds, ⟨rfl, hdivide⟩ | ⟨v, hv, rfl⟩⟩
    · exact ⟨_, .operator ht hgrown fun _ => hdivide, hadds⟩
    · exact ⟨_, .quotient ht hv, hadds⟩
  · rename_i hop
    refine Yields.of_eq (fun s => rfl) ⟨u, .operator ht hgrown fun h => absurd h hop, ?_⟩
    exact ⟨hs, .refl _, hu⟩

/-- Growth is never refused, and the tree is grown with the number of levels. -/
theorem grow_yields {levels : Nat} (hs : d.Sound) (hle : levels ≤ maxDepth) :
    Yields p (grow p levels : Growth σ Handle) d fun h d' =>
      ∃ t, Grown levels t ∧ Adds d t h d' := by
  induction levels using grow.induct generalizing d with
  | case1 => exact literal_grown hs (Nat.zero_le 1)
  | case2 => exact literal_grown hs (Nat.le_refl 1)
  | case3 levels ih =>
    -- each step is on the draft that the one before it left, where the earlier trees still stand
    refine Yields.bind operator_yields ?_
    rintro op _ rfl
    refine Yields.bind (ih hs (by omega)) ?_
    rintro left d₁ ⟨t, ht, hleft⟩
    refine Yields.bind (ih hleft.sound (by omega)) ?_
    rintro right d₂ ⟨u, hu, hright⟩
    refine Yields.bind (settle_yields hright.sound hright.holds ht hu) ?_
    rintro right' d₃ ⟨u', hgrown, hadds⟩
    have hdepth : (Tree.node op t u').depth ≤ maxDepth := by
      rw [hgrown.depth_eq]
      omega
    have hl : d₃.Holds left t := hadds.grown.holds (hright.grown.holds hleft.holds)
    refine (join_yields hadds.sound hl hadds.holds hdepth).mono ?_
    rintro h d' hjoin
    exact ⟨_, hgrown, hjoin.sound,
      ((hleft.grown.trans hright.grown).trans hadds.grown).trans hjoin.grown, hjoin.holds⟩

end Sampler

end ArithTree
