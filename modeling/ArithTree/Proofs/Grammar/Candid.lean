import ArithTree.Proofs.Grammar.Literal
import ArithTree.Proofs.Grammar.Lookahead
import ArithTree.Proofs.Grammar.Source

/-!
# Words and blanks hide nothing

Words of one letter and runs of digits are candid. Blanks are skipped without a report, so they are
candid only in front of a parser that looks at the next character and accounts for it (`Alert`).
`candidRefusal_whole` is the result for whole texts: nothing behind the furthest report has a part in
a refusal.
-/

namespace ArithTree.Parser

open Frontier

variable {α : Type} {p q : Parser α} {cs : List Char}

/-! ## Words and digits -/

theorem singleton_prefix_iff {c : Char} : [c] <+: cs ↔ cs.head? = some c := by
  cases cs with
  | nil => simp
  | cons d cs => simp [List.cons_prefix_cons, eq_comm]

/-- A longer word would be looked at behind the place where it is reported. -/
theorem candid_word {w : String} {c : Char} (hw : w.toList = [c]) : Candid (word w) := by
  intro cs
  by_cases h : w.toList <+: cs
  · have hseen : (word w).seen cs = none := by rw [seen_word, if_pos (by simpa using h)]
    obtain ⟨rest, rfl⟩ := h
    have hon := on_word_append w rest
    refine ⟨.of_ne (by simp [hon]) (hseen ▸ at_none), fun a next h => ?_⟩
    rw [hon] at h
    cases h
    exact ⟨w.toList, rfl, fun rest' _ => on_word_append w rest'⟩
  · have hseen : (word w).seen cs = some ⟨cs.length, [.word w]⟩ := by
      rw [seen_word, if_neg (by simpa using h)]
    refine .of_refused (.of_head hseen fun cs' hhead => ?_) (on_word_of_mismatch h)
    apply on_word_of_mismatch
    rwa [hw, singleton_prefix_iff, ← hhead, ← singleton_prefix_iff, ← hw]

theorem alert_word {w : String} (hw : w.toList ≠ []) : Alert (word w) := by
  intro cs a next h
  have hlen := List.length_pos_iff.2 hw
  rw [on_word_eq_done.1 h, List.length_append]
  exact .inl (by omega)

theorem candid_optional {w : String} {c : Char} (hw : w.toList = [c]) : Candid (optional w) :=
  ((candid_word hw).bind fun _ => candid_pure true).orElse (candid_pure false)

theorem alert_optional {w : String} {c : Char} (hw : w.toList = [c]) : Alert (optional w) := by
  have hword : Alert (word w) := alert_word (by simp [hw])
  exact .orElse ((candid_word hw).bind fun _ => candid_pure true)
    (hword.bind fun _ => candid_pure true) _

theorem NoDigit.of_head? {cs' : List Char} (h : NoDigit cs) (heq : cs.head? = cs'.head?) :
    NoDigit cs' := by
  unfold NoDigit at *
  rwa [← heq]

theorem noDigit_of_on_digits (h : digits.on cs = .refused) : NoDigit cs := by
  rw [on_digits] at h
  split at h
  · cases h
  · rename_i hrun
    cases cs with
    | nil => exact fun c hc => by cases hc
    | cons c cs =>
      intro c' hc' hdigit
      cases hc'
      exact absurd (by simp [Numeral.isRun, hdigit]) hrun

theorem candid_digits : Candid digits := by
  intro cs
  have hne : digits.seen cs ≠ none := seen_digits cs ▸ Option.some_ne_none _
  have hwithin : (digits.seen cs).At (· ≤ (cs.dropWhile Char.isDigit).length) :=
    seen_digits cs ▸ at_some.2 (Nat.le_refl _)
  have hle : (cs.dropWhile Char.isDigit).length ≤ cs.length :=
    (List.dropWhile_suffix _).length_le
  have hwithin' := hwithin.mono fun n hn => Nat.le_trans hn hle
  refine ⟨.of_reported hne hwithin' fun cs' h halike => ?_, fun ds next h => ?_⟩
  · have hhead := halike.head? hne hwithin'
    exact on_digits_of_noDigit ((noDigit_of_on_digits h).of_head? hhead)
  · obtain ⟨hcs, hrun, hnext⟩ := on_digits_eq_done.1 h
    refine ⟨ds, hcs, fun rest halike => on_digits_append hrun ?_⟩
    have hafter : cs.dropWhile Char.isDigit = next.rest := by
      rw [hcs, List.dropWhile_append_of_pos (Numeral.isRun_iff.1 hrun).2, hnext.dropWhile]
    rw [hafter] at hwithin
    have hnear : Alike (digits.seen cs) (ds ++ next.rest) (ds ++ rest) := hcs ▸ halike
    exact hnext.of_head? (((alike_append hwithin).1 hnear).head? hne hwithin)

/-! ## Blanks -/

/-- No blank comes first. -/
def NoBlank (cs : List Char) : Prop := ∀ c ∈ cs.head?, isBlank c = false

theorem NoBlank.of_head? {cs' : List Char} (h : NoBlank cs) (heq : cs.head? = cs'.head?) :
    NoBlank cs' := by
  unfold NoBlank at *
  rwa [← heq]

theorem NoBlank.append_of_ne_nil {u rest : List Char} (h : NoBlank (u ++ rest)) (hu : u ≠ [])
    (rest' : List Char) : NoBlank (u ++ rest') := by
  obtain ⟨c, u, rfl⟩ := List.exists_cons_of_ne_nil hu
  exact h.of_head? rfl

theorem exists_blanks_append (cs : List Char) : ∃ w m, Blanks w ∧ NoBlank m ∧ cs = w ++ m := by
  obtain ⟨w, hw, hcs⟩ := blanks_append_dropWhile cs
  refine ⟨w, _, hw, fun c hc => ?_, hcs⟩
  have := List.head?_dropWhile_not isBlank cs
  rw [hc] at this
  simpa using this

theorem dropWhile_blanks_append {w m : List Char} (hw : Blanks w) (hm : NoBlank m) :
    (w ++ m).dropWhile isBlank = m := by
  rw [hw.dropWhile_append]
  cases m with
  | nil => rfl
  | cons c m => exact List.dropWhile_cons_of_neg (by simp [hm c rfl])

section
variable {w m : List Char}

theorem on_blanks_append (hw : Blanks w) (hm : NoBlank m) (q : Parser α) :
    (do blanks; q : Parser α).on (w ++ m) = q.on m := by
  rw [on_bind, on_blanks, Outcome.done_andThen, Cursor.rest_start, dropWhile_blanks_append hw hm]

theorem seen_blanks_append (hw : Blanks w) (hm : NoBlank m) (q : Parser α) :
    (do blanks; q : Parser α).seen (w ++ m) = q.seen m := by
  rw [seen_bind_of_done (on_blanks _), Cursor.rest_start, dropWhile_blanks_append hw hm]
  rfl

/-- Blanks are skipped without a report, but the parser behind them reports where they end. -/
theorem CandidRefusal.blanks (hq : ∀ cs, CandidRefusal q cs) (cs : List Char) :
    CandidRefusal (do blanks; q : Parser α) cs := by
  obtain ⟨w, m, hw, hm, rfl⟩ := exists_blanks_append cs
  have hqm := hq m
  constructor
  · rw [seen_blanks_append hw hm]
    exact hqm.within.mono fun n hn => by rw [List.length_append]; omega
  · rw [on_blanks_append hw hm, seen_blanks_append hw hm]
    exact hqm.reported
  · intro cs' h halike
    rw [on_blanks_append hw hm] at h
    rw [seen_blanks_append hw hm] at halike
    have hne := hqm.reported h
    obtain ⟨rest, rfl⟩ := halike.exists_append hne hqm.within
    have hrest := (alike_append hqm.within).1 halike
    rw [on_blanks_append hw (hm.of_head? (hrest.head? hne hqm.within))]
    exact hqm.refused rest h hrest

theorem Candid.blanks (hq : Candid q) (halert : Alert q) : Candid (do blanks; q : Parser α) := by
  intro cs
  refine ⟨.blanks (fun cs => (hq cs).toCandidRefusal) cs, fun a next h => ?_⟩
  obtain ⟨w, m, hw, hm, rfl⟩ := exists_blanks_append cs
  rw [on_blanks_append hw hm] at h
  obtain ⟨u, rfl, hdone⟩ := (hq m).done a next h
  have hwithin := (hq (u ++ next.rest)).within
  refine ⟨w ++ u, (List.append_assoc ..).symm, fun rest halike => ?_⟩
  rw [seen_blanks_append hw hm, List.append_assoc] at halike
  have hrest := (alike_append hwithin).1 halike
  -- the character behind the blanks is taken, or it is reported there or further on
  have hsolid : NoBlank (u ++ rest) := by
    rcases halert _ a next h with hlt | hne
    · rw [List.length_append] at hlt
      exact hm.append_of_ne_nil (List.length_pos_iff.1 (by omega)) rest
    · exact hm.of_head? (hrest.head? hne hwithin)
  rw [List.append_assoc, on_blanks_append hw hsolid]
  exact hdone rest hrest

theorem candid_blanks_word {s : String} {c : Char} (hs : s.toList = [c]) (hq : Candid q) :
    Candid (do blanks; word s; q : Parser α) :=
  .blanks ((candid_word hs).bind fun _ => hq) ((alert_word (by simp [hs])).bind fun _ => hq)

/-- A word behind blanks is missed where the blanks end. -/
theorem at_seen_blanks_word {P : Nat → Prop} {s : String} (hw : Blanks w) (hm : NoBlank m)
    (hmiss : P m.length) (hq : ∀ rest, m = s.toList ++ rest → (q.seen rest).At P) :
    ((do blanks; word s; q : Parser α).seen (w ++ m)).At P := by
  rw [seen_blanks_append hw hm]
  refine at_seen_bind (at_seen_word hmiss) fun _ next hdone => ?_
  exact hq next.rest (on_word_eq_done.1 hdone)

end

/-! ## Literals -/

theorem candid_combine (op : Op) (l r : Expr) : Candid (combine op l r) := by
  unfold combine
  split
  · exact candid_pure _
  · exact candid_tooDeep

theorem candid_ofDigits (negative : Bool) (ds : List Char) : Candid (ofDigits negative ds) := by
  unfold ofDigits
  split
  · exact candid_pure _
  · exact candid_expected _

theorem candid_integer : Candid integer := by
  have hsign : Candid (optional "-") := candid_optional rfl
  have hdigits (negative : Bool) : Candid (digits >>= ofDigits negative) :=
    candid_digits.bind (candid_ofDigits negative)
  exact .blanks (hsign.bind hdigits) ((alert_optional rfl).bind hdigits)

theorem candid_literal : Candid literal := candid_integer.bind fun _ => candid_pure _

/-! ## Whole texts -/

/-- The end of the text is not reported where it is found, but it is where it is missed. -/
theorem candidRefusal_endOfText (a : α) (cs : List Char) :
    CandidRefusal (do endOfText; return a : Parser α) cs := by
  have hon (cs : List Char) : (do endOfText; return a : Parser α).on cs =
      if cs.isEmpty then .done a (.start cs) else .refused := by
    rw [on_bind, on_endOfText]
    cases cs <;> rfl
  cases cs with
  | nil => exact .of_ne (by simp [hon]) at_none
  | cons c cs =>
    refine .of_head rfl fun cs' hhead => ?_
    cases cs' with
    | nil => cases hhead
    | cons d cs' => rw [hon, if_neg (by simp)]

/-- **Nothing behind the furthest report has a part in the refusal of a text.** -/
theorem candidRefusal_whole (hp : Candid p) (cs : List Char) : CandidRefusal p.whole cs :=
  .bind (hp cs) fun a next _ => .blanks (candidRefusal_endOfText a) next.rest

/-- A text is unreadable where the whole parser refuses it, at the place of its furthest report. -/
theorem read_eq_unreadable {style style' : Style} {place : Place} {expected : List Expected}
    (h : p.read style cs = .error (.unreadable style' place expected)) :
    p.whole.on cs = .refused ∧ place = (p.whole.seen cs).place cs := by
  unfold read at h
  unfold on seen
  rcases hp : p.whole (.start cs) with ⟨_ | _ | _, frontier⟩ <;> rw [hp] at h <;> cases h
  exact ⟨rfl, rfl⟩

end ArithTree.Parser
