import ArithTree.Proofs.Evaluation.Exact
import ArithTree.Proofs.Sampling.Growth

/-!
# Sampled expressions divide by nonzero values only

A divisor is tested where it is complete, and nothing that is built above it changes it: every
divisor in a grown tree has a nonzero value (`Grown.canDivide`), so the only error that its
evaluation can meet is an overflow (`Grown.eval`). `sample_eq_some` carries this from the growth of
one tree to the sampled expression, and `sampleEach_ok` to any number of expressions that are sampled
one after the other. Sampling fails only if a draw runs out of patience; with a script of words it
does not if the patience is greater than the number of words (`Script.not_runsOut`).
-/

namespace ArithTree

open ArithTree.Random

/-! ## Grown trees -/

theorem IsDrawn.canDivide {v : Int64} (hv : IsDrawn v) : (Tree.lit v).CanDivide := by
  refine ⟨v, rfl, ?_⟩
  rintro rfl
  exact absurd hv.1 (by decide)

/-- Every divisor has a nonzero value. -/
theorem Grown.canDivide {levels : Nat} {t l r : Tree} (h : Grown levels t)
    (hmem : .node .div l r ∈ t.subtrees) : r.CanDivide := by
  induction h with
  | literal _ _ => cases List.mem_singleton.1 hmem
  | operator _ _ hdiv ihl ihr =>
    rcases Tree.mem_subtrees_node.1 hmem with heq | hmem | hmem
    · cases heq
      exact hdiv rfl
    · exact ihl hmem
    · exact ihr hmem
  | quotient _ hv ihl =>
    rcases Tree.mem_subtrees_node.1 hmem with heq | hmem | hmem
    · cases heq
      exact hv.canDivide
    · exact ihl hmem
    · cases List.mem_singleton.1 hmem

/-- A grown tree has a value or overflows. -/
theorem Grown.eval {levels : Nat} {t : Tree} (h : Grown levels t) :
    (∃ v, t.eval .standard = .ok v) ∨ t.eval .standard = .error .overflow := by
  cases heval : t.eval .standard with
  | ok v => exact .inl ⟨v, rfl⟩
  | error err =>
    rcases Tree.eval_standard_error heval with ⟨-, l, r, hmem, hzero⟩ | ⟨rfl, -⟩
    · obtain ⟨v, hv, hne⟩ := h.canDivide hmem
      have hexact := Tree.eval_standard_eq_ok.2 (show r.ExactInRange (0 : Int64).toInt from hzero)
      rw [hexact, Except.ok.injEq] at hv
      exact absurd hv.symm hne
    · exact .inr rfl

/-! ## One expression -/

namespace Sampler

variable {σ : Type} [Source σ] {g g' : Sampler σ} {depth : Nat}

theorem sampleArena_eq_some {result : Except Error Arena}
    (h : g.sampleArena depth = some (result, g')) :
    g'.patience = g.patience ∧ Later g.source g'.source ∧
      ∃ e, result = .ok (.ofExpr e) ∧ Grown (min depth maxDepth) e.tree := by
  simp only [sampleArena, Option.bind_eq_bind, Option.bind_eq_some_iff, Option.pure_def,
    Option.some.injEq, Prod.mk.injEq] at h
  obtain ⟨⟨grown, source⟩, hgrown, rfl, rfl⟩ := h
  have hyields := grow_yields (p := g.patience) (σ := σ) (Draft.sound_empty 0)
    (Nat.min_le_right depth maxDepth)
  obtain ⟨hlater, root, d, rfl, t, ht, hadds⟩ := hyields.ends _ _ _ hgrown
  have hle : t.depth ≤ maxDepth := hadds.sound.depth_le hadds.holds
  exact ⟨rfl, hlater, ⟨t, hle⟩, Draft.Holds.extract (e := ⟨t, hle⟩) hadds.holds, ht⟩

/-- If the draws end, there is an expression, and it is grown. -/
theorem sample_eq_some {result : Except Error Expr} (h : g.sample depth = some (result, g')) :
    g'.patience = g.patience ∧ Later g.source g'.source ∧
      ∃ e, result = .ok e ∧ Grown (min depth maxDepth) e.tree := by
  simp only [sample, Option.bind_eq_bind, Option.bind_eq_some_iff, Option.pure_def,
    Option.some.injEq, Prod.mk.injEq] at h
  obtain ⟨⟨made, g₁⟩, hmade, rfl, rfl⟩ := h
  obtain ⟨hpatience, hlater, e, rfl, he⟩ := sampleArena_eq_some hmade
  exact ⟨hpatience, hlater, e, rfl, he⟩

theorem sample_eq_none (h : g.sample depth = none) : RunsOut g.patience g.source := by
  have hyields := grow_yields (p := g.patience) (σ := σ) (Draft.sound_empty 0)
    (Nat.min_le_right depth maxDepth)
  refine hyields.runsOut g.source ?_
  cases hgrown : grow g.patience (min depth maxDepth) { owner := 0 } g.source with
  | none => rfl
  | some grown =>
    rw [sample, sampleArena, hgrown] at h
    cases h

/-! ## One after the other -/

theorem sampleEach_cons (g : Sampler σ) (depth : Nat) (depths : List Nat) :
    g.sampleEach (depth :: depths) = (g.sample depth).bind fun (result, g) =>
      (g.sampleEach depths).bind fun (results, g) => some (result :: results, g) := rfl

theorem grown_of_mem_sampleEach {depths : List Nat} {results : List (Except Error Expr)}
    (h : g.sampleEach depths = some (results, g')) :
    results.length = depths.length ∧
      ∀ result ∈ results, ∃ levels e, result = .ok e ∧ Grown levels e.tree := by
  induction depths generalizing g results with
  | nil =>
    cases h
    exact ⟨rfl, by simp⟩
  | cons depth depths ih =>
    simp only [sampleEach_cons, Option.bind_eq_some_iff, Option.some.injEq, Prod.mk.injEq] at h
    obtain ⟨⟨first, g₁⟩, hfirst, ⟨rest, g₂⟩, hrest, rfl, rfl⟩ := h
    obtain ⟨hlength, hgrown⟩ := ih hrest
    obtain ⟨-, -, e, rfl, he⟩ := sample_eq_some hfirst
    refine ⟨by simp [hlength], fun result hmem => ?_⟩
    rcases List.mem_cons.1 hmem with rfl | hmem
    · exact ⟨_, e, rfl, he⟩
    · exact hgrown result hmem

theorem sampleEach_eq_none {depths : List Nat} (h : g.sampleEach depths = none) :
    RunsOut g.patience g.source := by
  induction depths generalizing g with
  | nil => cases h
  | cons depth depths ih =>
    rw [sampleEach_cons] at h
    cases hfirst : g.sample depth with
    | none => exact sample_eq_none hfirst
    | some sampled =>
      obtain ⟨first, g₁⟩ := sampled
      obtain ⟨hpatience, hlater, -⟩ := sample_eq_some hfirst
      cases hrest : g₁.sampleEach depths with
      | none => exact (hpatience ▸ ih hrest).of_later hlater
      | some rest =>
        simp only [hfirst, hrest, Option.bind_some, reduceCtorEq] at h

end Sampler

/-! ## Scripts -/

namespace Random.Script

variable {s s' : Script} {p : Nat}

theorem length_words_of_later (h : Later s s') : s'.words.length ≤ s.words.length := by
  induction h with
  | refl => exact Nat.le_refl _
  | @tail s₁ s₂ _ hnext ih =>
    obtain ⟨words, used⟩ := s₁
    subst hnext
    cases words with
    | nil => exact ih
    | cons word words => exact Nat.le_trans (Nat.le_succ _) ih

/-- The zeros after the words of a script are accepted by every draw. -/
theorem length_words_of_below_eq_none {n : Nat} {pos : 0 < n} (h : below n pos p s = none) :
    p ≤ s.words.length := by
  induction p generalizing s with
  | zero => exact Nat.zero_le _
  | succ p ih =>
    obtain ⟨words, used⟩ := s
    rw [below_succ] at h
    split at h
    · cases h
    · rename_i hrejected
      cases words with
      | nil =>
        have hzero : (Source.next (⟨[], used⟩ : Script)).1.toNat = 0 := rfl
        rw [hzero, Nat.zero_mul, Nat.zero_mod] at hrejected
        exact absurd (Nat.zero_le _) hrejected
      | cons word words => exact Nat.succ_le_succ (ih h)

/-- A script ends every draw that has the patience for all its words. -/
theorem not_runsOut (h : s.words.length < p) : ¬ RunsOut p s := by
  rintro ⟨s', hlater, hnone⟩
  have hwords := length_words_of_later hlater
  have hpatience : p ≤ s'.words.length := by
    rcases hnone with h | h
    · exact length_words_of_below_eq_none h
    · exact length_words_of_below_eq_none h
  omega

end Random.Script

/-- **Nothing that is sampled divides by zero.** Whatever is sampled one after the other is an
expression in which every divisor has a nonzero value, and so it has a value or overflows. There are
no results only if a draw runs out of patience. -/
theorem Sampler.sampleEach_ok {σ : Type} [Source σ] (g : Sampler σ) (depths : List Nat) :
    (∀ results g', g.sampleEach depths = some (results, g') →
      results.length = depths.length ∧
      ∀ result ∈ results, ∃ e, result = .ok e ∧
        (∀ l r, .node .div l r ∈ e.tree.subtrees → ∃ v, r.eval .standard = .ok v ∧ v ≠ 0) ∧
        ((∃ v, e.eval = .ok v) ∨ e.eval = .error .overflow)) ∧
    (g.sampleEach depths = none → RunsOut g.patience g.source) := by
  refine ⟨fun results g' h => ?_, sampleEach_eq_none⟩
  obtain ⟨hlength, hgrown⟩ := grown_of_mem_sampleEach h
  refine ⟨hlength, fun result hmem => ?_⟩
  obtain ⟨levels, e, he, hgrown⟩ := hgrown result hmem
  exact ⟨e, he, fun l r hdiv => hgrown.canDivide hdiv, hgrown.eval⟩

/-- A script that begins with a quotient. -/
theorem Sampler.sampleEach_ok_script :
    let g : Sampler Script := { source := { words := [0xC000000000000000] }, patience := 2 }
    ∃ results g', g.sampleEach [2, 3] = some (results, g') ∧ results.length = 2 ∧
      ∀ result ∈ results, ∃ e, result = .ok e ∧ e.eval ≠ .error .divisionByZero := by
  intro g
  obtain ⟨hok, hnone⟩ := Sampler.sampleEach_ok g [2, 3]
  cases h : g.sampleEach [2, 3] with
  | none => exact absurd (hnone h) (Script.not_runsOut (by decide))
  | some sampled =>
    obtain ⟨results, g'⟩ := sampled
    obtain ⟨hlength, hresults⟩ := hok results g' h
    refine ⟨results, g', rfl, hlength, fun result hmem => ?_⟩
    obtain ⟨e, he, -, ⟨v, hv⟩ | hv⟩ := hresults result hmem
    · exact ⟨e, he, by simp [hv]⟩
    · exact ⟨e, he, by simp [hv]⟩

end ArithTree
