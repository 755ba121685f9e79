import ArithTree.Proofs.Grammar.Outcome

/-!
# Reports of parsers

Where a parser reports, its outcome aside: `p.seen cs` is the frontier of `p` where the characters
`cs` are left, and the combinators have equations for it. `Frontier.At P f` says that the report `f`,
if there is one, stands at a place as `P` says. Of several reports the furthest is kept and no place
is made up, so what holds of the places of all parts of a parser holds of its own (`at_seen_bind`,
`at_seen_orElse`, `at_seen_chain`).
-/

namespace ArithTree

/-! ## Places of reports -/

/-- The report stands at a place as `P` says, if there is one. -/
def Frontier.At (P : Nat → Prop) (f : Frontier) : Prop := ∀ r ∈ f, P r.left

namespace Frontier

variable {P Q : Nat → Prop} {f g : Frontier}

theorem at_none : At P none := fun _ h => by cases h

theorem at_some {r : Report} : At P (some r) ↔ P r.left :=
  ⟨fun h => h r rfl, fun h _ hr => Option.mem_some_iff.1 hr ▸ h⟩

theorem At.mono (h : f.At P) (hPQ : ∀ n, P n → Q n) : f.At Q := fun r hr => hPQ _ (h r hr)

/-- The furthest of several reports is one of them. -/
theorem At.merge (hf : f.At P) (hg : g.At P) : (f.merge g).At P := by
  cases f with
  | none => exact hg
  | some a =>
    cases g with
    | none => exact hf
    | some b =>
      rw [at_some] at hf hg
      show At P (some (join a b))
      rw [at_some, left_join]
      rcases Nat.le_total a.left b.left with h | h
      · rwa [Nat.min_eq_left h]
      · rwa [Nat.min_eq_right h]

theorem merge_ne_none (h : f ≠ none ∨ g ≠ none) : f.merge g ≠ none := by
  cases f with
  | none => exact h.resolve_left fun hne => hne rfl
  | some a => cases g <;> exact Option.some_ne_none _

end Frontier

namespace Parser

open Frontier

variable {α β : Type}

/-- The frontier of a parser where the characters `cs` are left. -/
def seen (p : Parser α) (cs : List Char) : Frontier := (p (.start cs)).frontier

section
variable {p q : Parser α} {f : α → Parser β} {cs : List Char} {a : α} {next : Cursor}

theorem seen_bind_of_done (h : p.on cs = .done a next) :
    (p >>= f).seen cs = (p.seen cs).merge ((f a).seen next.rest) := by
  unfold seen
  unfold on at h
  rw [bind_apply]
  rcases hp : p (.start cs) with ⟨outcome, seen⟩
  rw [hp] at h
  cases h
  rw [Cursor.start_rest]
  rfl

theorem seen_bind_of_not_done (h : ∀ a next, p.on cs ≠ .done a next) :
    (p >>= f).seen cs = p.seen cs := by
  unfold seen
  unfold on at h
  rw [bind_apply]
  rcases hp : p (.start cs) with ⟨⟨a, next⟩ | _ | _, seen⟩
  · rw [hp] at h
    exact absurd rfl (h a next)
  · rfl
  · rfl

theorem seen_orElse_of_refused (h : p.on cs = .refused) :
    (orElse p q).seen cs = (p.seen cs).merge (q.seen cs) := by
  unfold seen orElse
  unfold on at h
  rcases hp : p (.start cs) with ⟨outcome, seen⟩
  rw [hp] at h
  cases h
  rfl

theorem seen_orElse_of_ne (h : p.on cs ≠ .refused) : (orElse p q).seen cs = p.seen cs := by
  unfold seen orElse
  unfold on at h
  rcases hp : p (.start cs) with ⟨_ | _ | _, seen⟩
  · rfl
  · rw [hp] at h
    exact absurd rfl h
  · rfl

end

section
variable {step : α → Parser α} {a : α} {cs : List Char}

theorem seen_chain (step : α → Parser α) (a : α) (cs : List Char) : seen (chain step a) cs =
    match (step a).on cs with
    | .done b next =>
      if next.rest.length < cs.length then
        ((step a).seen cs).merge (seen (chain step b) next.rest)
      else (step a).seen cs
    | .refused | .tooDeep => (step a).seen cs := by
  unfold seen on
  rw [chain]
  rcases step a (.start cs) with ⟨⟨b, next⟩ | _ | _, seen⟩
  · simp only [next.left_eq, (Cursor.start cs).left_eq, Cursor.rest_start]
    split
    · rw [Cursor.start_rest]
      rfl
    · rfl
  · rfl
  · rfl

end

theorem seen_combine (op : Op) (l r : Expr) (cs : List Char) : (combine op l r).seen cs = none := by
  unfold seen combine
  cases Expr.combine op l r <;> rfl

theorem seen_word (w : String) (cs : List Char) : (word w).seen cs =
    if w.toList.isPrefixOf cs then none else some ⟨cs.length, [.word w]⟩ := by
  unfold seen word
  rw [Cursor.rest_start]
  split <;> rfl

theorem seen_digits (cs : List Char) :
    digits.seen cs = some ⟨(cs.dropWhile Char.isDigit).length, [.digit]⟩ := by
  have hleft : ((Cursor.start cs).skip Char.isDigit).left = (cs.dropWhile Char.isDigit).length := by
    rw [Cursor.left_eq, Cursor.rest_skip, Cursor.rest_start]
  rw [← hleft]
  unfold seen digits
  dsimp only
  split <;> rfl

/-! ## Places of all reports -/

section
variable {P : Nat → Prop} {p q : Parser α} {f : α → Parser β} {cs : List Char}

theorem at_seen_word {w : String} (h : P cs.length) : ((word w).seen cs).At P := by
  rw [seen_word]
  split
  · exact at_none
  · exact at_some.2 h

theorem at_seen_endOfText (h : P cs.length) : (endOfText.seen cs).At P := by
  unfold seen endOfText
  split
  · exact at_none
  · exact at_some.2 h

theorem at_seen_bind (hp : (p.seen cs).At P)
    (hf : ∀ a next, p.on cs = .done a next → ((f a).seen next.rest).At P) :
    ((p >>= f).seen cs).At P := by
  cases hon : p.on cs with
  | done a next =>
    rw [seen_bind_of_done hon]
    exact hp.merge (hf a next hon)
  | refused =>
    rw [seen_bind_of_not_done (by simp [hon])]
    exact hp
  | tooDeep =>
    rw [seen_bind_of_not_done (by simp [hon])]
    exact hp

theorem at_seen_orElse (hp : (p.seen cs).At P) (hq : p.on cs = .refused → (q.seen cs).At P) :
    ((orElse p q).seen cs).At P := by
  by_cases hon : p.on cs = .refused
  · rw [seen_orElse_of_refused hon]
    exact hp.merge (hq hon)
  · rw [seen_orElse_of_ne hon]
    exact hp

/-- The steps of a chain report at such places as long as something holds that every step keeps. -/
theorem at_seen_chain {Q : α → List Char → Prop} {step : α → Parser α}
    (hkeep : ∀ a cs b next, Q a cs → (step a).on cs = .done b next → Q b next.rest)
    (hstep : ∀ a cs, Q a cs → ((step a).seen cs).At P) {a : α} (ha : Q a cs) :
    (seen (chain step a) cs).At P := by
  induction hn : cs.length using Nat.strongRecOn generalizing a cs with
  | ind n ih =>
    rw [seen_chain]
    split
    · rename_i b next hon
      split
      · rename_i hlt
        exact (hstep a cs ha).merge (ih _ (hn ▸ hlt) (hkeep a cs b next ha hon) rfl)
      · exact hstep a cs ha
    · exact hstep a cs ha
    · exact hstep a cs ha

end

end Parser

end ArithTree
