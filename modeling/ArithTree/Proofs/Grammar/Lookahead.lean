import ArithTree.Proofs.Grammar.Report

/-!
# How far parsers look

A parser may read on only as far as it accounts for: what it took off the text, and the place of its
furthest report. `Alike f cs cs'` says that two texts have the same characters up to the report `f`,
the one that stands there included. A parser is `Candid` if no other character counts: in front of any
rest that is alike it takes the same characters off, and it refuses every text that is alike to one
that it refuses. Sequences, choices and chains of candid parsers are candid.
-/

namespace ArithTree.Parser

open Frontier

variable {α β : Type}

/-! ## Texts that reports do not tell apart -/

/-- Both texts have the same characters up to the report, and the same one there, or both end. -/
def Alike (f : Frontier) (cs cs' : List Char) : Prop :=
  f.At fun left => cs.take (cs.length + 1 - left) = cs'.take (cs.length + 1 - left)

section
variable {f g : Frontier} {cs cs' u rest rest' : List Char}

theorem take_eq_of_le {m n : Nat} (h : cs.take n = cs'.take n) (hmn : m ≤ n) :
    cs.take m = cs'.take m := by
  have htake := congrArg (List.take m) h
  rwa [List.take_take, List.take_take, Nat.min_eq_left hmn] at htake

theorem Alike.of_merge (h : Alike (f.merge g) cs cs') : Alike f cs cs' ∧ Alike g cs cs' := by
  unfold Alike at *
  cases f with
  | none => exact ⟨at_none, h⟩
  | some a =>
    cases g with
    | none => exact ⟨h, at_none⟩
    | some b =>
      have hmin := at_some.1 (show At _ (some (join a b)) from h)
      rw [left_join] at hmin
      exact ⟨at_some.2 (take_eq_of_le hmin (by omega)), at_some.2 (take_eq_of_le hmin (by omega))⟩

theorem alike_append (hf : f.At (· ≤ rest.length)) :
    Alike f (u ++ rest) (u ++ rest') ↔ Alike f rest rest' := by
  cases f with
  | none => exact ⟨fun _ => at_none, fun _ => at_none⟩
  | some r =>
    have hr : r.left ≤ rest.length := at_some.1 hf
    have hlen : (u ++ rest).length + 1 - r.left = u.length + (rest.length + 1 - r.left) := by
      rw [List.length_append]
      omega
    unfold Alike
    rw [at_some, at_some, hlen, List.take_length_add_append, List.take_length_add_append,
      List.append_cancel_left_eq]

/-- A report behind `u` fixes all of `u`. -/
theorem Alike.exists_append (h : Alike f (u ++ rest) cs') (hne : f ≠ none)
    (hf : f.At (· ≤ rest.length)) : ∃ rest', cs' = u ++ rest' := by
  obtain ⟨r, rfl⟩ := Option.ne_none_iff_exists'.1 hne
  have hr : r.left ≤ rest.length := at_some.1 hf
  have htake := at_some.1 h
  have hu : (u ++ rest).take u.length = cs'.take u.length :=
    take_eq_of_le htake (by rw [List.length_append]; omega)
  rw [List.take_left] at hu
  refine ⟨cs'.drop u.length, ?_⟩
  conv => rhs; arg 1; rw [hu]
  exact (List.take_append_drop _ _).symm

/-- A report at the start or behind it fixes the first character. -/
theorem Alike.head? (h : Alike f cs cs') (hne : f ≠ none) (hf : f.At (· ≤ cs.length)) :
    cs.head? = cs'.head? := by
  obtain ⟨r, rfl⟩ := Option.ne_none_iff_exists'.1 hne
  have hr : r.left ≤ cs.length := at_some.1 hf
  have htake : cs.take 1 = cs'.take 1 := take_eq_of_le (at_some.1 h) (by omega)
  cases cs <;> cases cs' <;> simp_all

end

/-! ## Candid parsers -/

/-- A refusal on `cs` is reported, and what stands behind the report has no part in it. -/
structure CandidRefusal (p : Parser α) (cs : List Char) : Prop where
  within : (p.seen cs).At (· ≤ cs.length)
  reported : p.on cs = .refused → p.seen cs ≠ none
  refused : ∀ cs', p.on cs = .refused → Alike (p.seen cs) cs cs' → p.on cs' = .refused

/-- What the parser takes off `cs` it also takes off in front of any other rest that is alike, and its
refusals are candid. -/
structure CandidOn (p : Parser α) (cs : List Char) : Prop extends CandidRefusal p cs where
  done : ∀ a next, p.on cs = .done a next → ∃ u, cs = u ++ next.rest ∧
    ∀ rest, Alike (p.seen cs) cs (u ++ rest) → p.on (u ++ rest) = .done a (.start rest)

/-- A parser that looks at nothing but what it takes off or reports. -/
def Candid (p : Parser α) : Prop := ∀ cs, CandidOn p cs

/-- A parser that takes the next character off or reports something there or behind it. -/
def Alert (p : Parser α) : Prop :=
  ∀ cs a next, p.on cs = .done a next → next.rest.length < cs.length ∨ p.seen cs ≠ none

variable {p q : Parser α} {f : α → Parser β} {cs : List Char}

theorem CandidRefusal.of_ne (hon : p.on cs ≠ .refused) (hwithin : (p.seen cs).At (· ≤ cs.length)) :
    CandidRefusal p cs :=
  ⟨hwithin, fun h => absurd h hon, fun _ h => absurd h hon⟩

theorem CandidRefusal.of_reported (hne : p.seen cs ≠ none)
    (hwithin : (p.seen cs).At (· ≤ cs.length))
    (hrefused : ∀ cs', p.on cs = .refused → Alike (p.seen cs) cs cs' → p.on cs' = .refused) :
    CandidRefusal p cs :=
  ⟨hwithin, fun _ => hne, hrefused⟩

/-- The first character alone decides. -/
theorem CandidRefusal.of_head {es : List Expected} (hseen : p.seen cs = some ⟨cs.length, es⟩)
    (hrefused : ∀ cs', cs.head? = cs'.head? → p.on cs' = .refused) : CandidRefusal p cs := by
  have hne : p.seen cs ≠ none := hseen ▸ Option.some_ne_none _
  have hwithin : (p.seen cs).At (· ≤ cs.length) := hseen ▸ at_some.2 (Nat.le_refl _)
  exact .of_reported hne hwithin fun cs' _ halike => hrefused cs' (halike.head? hne hwithin)

theorem CandidOn.of_refused (h : CandidRefusal p cs) (hon : p.on cs = .refused) : CandidOn p cs :=
  ⟨h, fun a next hdone => by rw [hon] at hdone; cases hdone⟩

theorem candid_pure (a : α) : Candid (pure a : Parser α) := by
  intro cs
  refine ⟨.of_ne (by simp) at_none, fun a' next h => ?_⟩
  cases h
  exact ⟨[], rfl, fun rest _ => rfl⟩

theorem candid_expected (e : Expected) : Candid (expected e : Parser α) := fun _ =>
  .of_refused (.of_head rfl fun _ _ => rfl) rfl

theorem candid_tooDeep : Candid (tooDeep : Parser α) := fun _ =>
  ⟨.of_ne (by simp) at_none, fun _ _ h => by cases h⟩

/-! ### Sequences -/

/-- The second of two parsers has reported behind what the first one took. -/
theorem CandidRefusal.bind (hp : CandidOn p cs)
    (hf : ∀ a next, p.on cs = .done a next → CandidRefusal (f a) next.rest) :
    CandidRefusal (p >>= f) cs := by
  cases hon : p.on cs with
  | done a next =>
    obtain ⟨u, rfl, hdone⟩ := hp.done a next hon
    have hfa := hf a next hon
    have hseen : (p >>= f).seen (u ++ next.rest) =
        (p.seen (u ++ next.rest)).merge ((f a).seen next.rest) := seen_bind_of_done hon
    have hbind : (p >>= f).on (u ++ next.rest) = (f a).on next.rest := by
      rw [on_bind, hon, Outcome.done_andThen]
    constructor
    · rw [hseen]
      exact hp.within.merge (hfa.within.mono fun n hn => by rw [List.length_append]; omega)
    · intro h
      rw [hseen]
      exact merge_ne_none (.inr (hfa.reported (hbind ▸ h)))
    · intro cs' h halike
      rw [hbind] at h
      rw [hseen] at halike
      obtain ⟨hfirst, hsecond⟩ := halike.of_merge
      obtain ⟨rest, rfl⟩ := hsecond.exists_append (hfa.reported h) hfa.within
      rw [on_bind, hdone rest hfirst, Outcome.done_andThen, Cursor.rest_start]
      exact hfa.refused rest h ((alike_append hfa.within).1 hsecond)
  | refused =>
    have hseen : (p >>= f).seen cs = p.seen cs := seen_bind_of_not_done (by simp [hon])
    constructor
    · rw [hseen]
      exact hp.within
    · intro _
      rw [hseen]
      exact hp.reported hon
    · intro cs' _ halike
      rw [hseen] at halike
      rw [on_bind, hp.refused cs' hon halike, Outcome.refused_andThen]
  | tooDeep =>
    refine .of_ne (by rw [on_bind, hon, Outcome.tooDeep_andThen]; simp) ?_
    rw [seen_bind_of_not_done (by simp [hon])]
    exact hp.within

theorem Candid.bind (hp : Candid p) (hf : ∀ a, Candid (f a)) : Candid (p >>= f) := by
  intro cs
  refine ⟨.bind (hp cs) fun a next _ => (hf a next.rest).toCandidRefusal, fun b next h => ?_⟩
  obtain ⟨a, middle, ha, hb⟩ := on_bind_eq_done.1 h
  have hfa := hf a middle.rest
  obtain ⟨u, hu, hfirst⟩ := (hp cs).done a middle ha
  obtain ⟨v, hv, hsecond⟩ := hfa.done b next hb
  refine ⟨u ++ v, by rw [hu, hv, List.append_assoc], fun rest halike => ?_⟩
  rw [seen_bind_of_done ha, List.append_assoc] at halike
  have hbehind : Alike ((f a).seen middle.rest) (u ++ middle.rest) (u ++ (v ++ rest)) :=
    hu ▸ halike.of_merge.2
  rw [List.append_assoc, on_bind, hfirst _ halike.of_merge.1, Outcome.done_andThen,
    Cursor.rest_start]
  exact hsecond rest ((alike_append hfa.within).1 hbehind)

theorem Alert.bind (hp : Alert p) (hf : ∀ a, Candid (f a)) : Alert (p >>= f) := by
  intro cs b next h
  obtain ⟨a, middle, ha, hb⟩ := on_bind_eq_done.1 h
  obtain ⟨v, hv, -⟩ := (hf a middle.rest).done b next hb
  have hlen : next.rest.length ≤ middle.rest.length := by
    rw [hv, List.length_append]
    omega
  rw [seen_bind_of_done ha]
  rcases hp cs a middle ha with hlt | hne
  · exact .inl (by omega)
  · exact .inr (merge_ne_none (.inl hne))

/-! ### Choices -/

theorem on_orElse_of_ne (hon : p.on cs ≠ .refused) : (orElse p q).on cs = p.on cs := by
  rw [on_orElse]
  cases h : p.on cs with
  | refused => exact absurd h hon
  | done a next => rfl
  | tooDeep => rfl

theorem Candid.orElse (hp : Candid p) (hq : Candid q) : Candid (orElse p q) := by
  intro cs
  have hpc := hp cs
  have hqc := hq cs
  by_cases hon : p.on cs = .refused
  · have hseen : (Parser.orElse p q).seen cs = (p.seen cs).merge (q.seen cs) :=
      seen_orElse_of_refused hon
    have hskip (cs') (h : p.on cs' = .refused) : (Parser.orElse p q).on cs' = q.on cs' := by
      rw [on_orElse, h, Outcome.refused_orElse]
    refine ⟨.of_reported ?_ ?_ fun cs' h halike => ?_, fun a next h => ?_⟩
    · rw [hseen]
      exact merge_ne_none (.inl (hpc.reported hon))
    · rw [hseen]
      exact hpc.within.merge hqc.within
    · rw [hseen] at halike
      rw [hskip cs hon] at h
      rw [hskip cs' (hpc.refused cs' hon halike.of_merge.1)]
      exact hqc.refused cs' h halike.of_merge.2
    · rw [hskip cs hon] at h
      obtain ⟨u, hu, hdone⟩ := hqc.done a next h
      refine ⟨u, hu, fun rest halike => ?_⟩
      rw [hseen] at halike
      rw [hskip _ (hpc.refused _ hon halike.of_merge.1)]
      exact hdone rest halike.of_merge.2
  · have hseen : (Parser.orElse p q).seen cs = p.seen cs := seen_orElse_of_ne hon
    have heq : (Parser.orElse p q).on cs = p.on cs := on_orElse_of_ne hon
    refine ⟨.of_ne (heq ▸ hon) (hseen ▸ hpc.within), fun a next h => ?_⟩
    rw [heq] at h
    obtain ⟨u, hu, hdone⟩ := hpc.done a next h
    refine ⟨u, hu, fun rest halike => ?_⟩
    rw [hseen] at halike
    rw [on_orElse, hdone rest halike, Outcome.done_orElse]

theorem Alert.orElse (hp : Candid p) (halert : Alert p) (q : Parser α) : Alert (orElse p q) := by
  intro cs a next h
  by_cases hon : p.on cs = .refused
  · rw [seen_orElse_of_refused hon]
    exact .inr (merge_ne_none (.inl ((hp cs).reported hon)))
  · rw [on_orElse_of_ne hon] at h
    rw [seen_orElse_of_ne hon]
    exact halert cs a next h

theorem orElse_refuse (p : Parser α) : orElse p refuse = p := by
  funext c
  unfold orElse
  rcases p c with ⟨_ | _ | _, seen⟩
  · rfl
  · show (⟨.refused, seen.merge none⟩ : Reply α) = ⟨.refused, seen⟩
    rw [merge_none]
  · rfl

theorem candid_oneOf {ps : List (Parser α)} (hne : ps ≠ []) (h : ∀ p ∈ ps, Candid p) :
    Candid (oneOf ps) := by
  induction ps with
  | nil => exact absurd rfl hne
  | cons p ps ih =>
    rw [List.forall_mem_cons] at h
    rw [oneOf_cons]
    cases ps with
    | nil =>
      rw [oneOf_nil, orElse_refuse]
      exact h.1
    | cons q qs => exact h.1.orElse (ih (List.cons_ne_nil q qs) h.2)

theorem candid_within {style : Style} {body : Parser α → Parser α}
    (hbody : ∀ inner, Candid inner → Candid (body inner)) (n : Nat) :
    Candid (Parser.within style body n) := by
  induction n with
  | zero => exact candid_tooDeep
  | succ n ih => exact (hbody _ ih).orElse (candid_expected _)

/-! ### Chains -/

section
variable {step : α → Parser α} {a b : α} {next : Cursor}

theorem on_chain_ne_refused (step : α → Parser α) (a : α) (cs : List Char) :
    on (chain step a) cs ≠ .refused := by
  induction hn : cs.length using Nat.strongRecOn generalizing a cs with
  | ind n ih =>
    rw [on_chain]
    split
    · split
      · rename_i hlt
        exact ih _ (hn ▸ hlt) _ _ rfl
      · simp
    · simp
    · simp

/-- No further step gets ahead in the text. -/
def Idle (step : α → Parser α) (a : α) (cs : List Char) : Prop :=
  (step a).on cs = .refused ∨ ∃ b, (step a).on cs = .done b (.start cs)

theorem Idle.on_chain (h : Idle step a cs) : on (chain step a) cs = .done a (.start cs) := by
  rcases h with h | ⟨b, h⟩
  · exact chain_of_refused h
  · rw [Parser.on_chain, h]
    simp

theorem Idle.seen_chain (h : Idle step a cs) : seen (chain step a) cs = (step a).seen cs := by
  rw [Parser.seen_chain]
  rcases h with h | ⟨b, h⟩
  · rw [h]
  · simp [h]

theorem Idle.of_alike (h : Idle step a cs) (hs : CandidOn (step a) cs) {cs' : List Char}
    (halike : Alike ((step a).seen cs) cs cs') : Idle step a cs' := by
  rcases h with h | ⟨b, h⟩
  · exact .inl (hs.refused cs' h halike)
  · obtain ⟨u, hu, hdone⟩ := hs.done b _ h
    have hnil : u = [] := List.append_left_eq_self.1 hu.symm
    subst hnil
    exact .inr ⟨b, hdone cs' halike⟩

/-- A candid step takes characters off, or the chain ends. -/
theorem CandidOn.cases_step (hs : CandidOn (step a) cs) :
    Idle step a cs ∨ (step a).on cs = .tooDeep ∨
      ∃ b next, (step a).on cs = .done b next ∧ next.rest.length < cs.length := by
  cases hon : (step a).on cs with
  | refused => exact .inl (.inl hon)
  | tooDeep => exact .inr (.inl rfl)
  | done b next =>
    obtain ⟨u, hu, -⟩ := hs.done b next hon
    cases u with
    | nil =>
      have hnext : next = .start cs := Cursor.ext_rest hu.symm
      exact .inl (.inr ⟨b, hnext ▸ hon⟩)
    | cons c u =>
      refine .inr (.inr ⟨b, next, rfl, ?_⟩)
      rw [hu, List.length_append, List.length_cons]
      omega

theorem candid_chain (hstep : ∀ a, Candid (step a)) (a : α) : Candid (chain step a) := by
  intro cs
  -- the text gets shorter with every step
  induction hn : cs.length using Nat.strongRecOn generalizing a cs with
  | ind n ih =>
    have hs := hstep a cs
    rcases hs.cases_step with hidle | hdeep | ⟨b, next, hon, hlt⟩
    · have hseen := hidle.seen_chain
      refine ⟨.of_ne (on_chain_ne_refused step a cs) (hseen ▸ hs.within), fun c fin h => ?_⟩
      rw [hidle.on_chain] at h
      cases h
      refine ⟨[], rfl, fun rest halike => ?_⟩
      rw [hseen] at halike
      exact (hidle.of_alike hs halike).on_chain
    · have hseen : seen (chain step a) cs = (step a).seen cs := by rw [seen_chain, hdeep]
      refine ⟨.of_ne (on_chain_ne_refused step a cs) (hseen ▸ hs.within), fun c fin h => ?_⟩
      rw [chain_of_tooDeep hdeep] at h
      cases h
    · have hseen : seen (chain step a) cs =
          ((step a).seen cs).merge (seen (chain step b) next.rest) := by
        rw [seen_chain, hon]
        exact if_pos hlt
      have hb := ih _ (hn ▸ hlt) b next.rest rfl
      obtain ⟨u, rfl, hdone⟩ := hs.done b next hon
      rw [List.length_append] at hlt
      have hchain (rest) (h : (step a).on (u ++ rest) = .done b (.start rest)) :
          on (chain step a) (u ++ rest) = on (chain step b) rest :=
        chain_of_done h (by rw [List.length_append]; omega)
      refine ⟨.of_ne (on_chain_ne_refused step a _) ?_, fun c fin h => ?_⟩
      · rw [hseen]
        exact hs.within.merge (hb.within.mono fun n hn => by rw [List.length_append]; omega)
      · rw [hchain next.rest (by rw [hon, Cursor.start_rest])] at h
        obtain ⟨v, hv, hih⟩ := hb.done c fin h
        refine ⟨u ++ v, by rw [hv, List.append_assoc], fun rest halike => ?_⟩
        rw [hseen, List.append_assoc] at halike
        rw [List.append_assoc, hchain _ (hdone _ halike.of_merge.1)]
        exact hih rest ((alike_append hb.within).1 halike.of_merge.2)

end

end ArithTree.Parser
