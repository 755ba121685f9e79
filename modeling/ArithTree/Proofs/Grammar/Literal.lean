import ArithTree.Proofs.Grammar.Outcome

/-!
# Literals in a text

`Spells cs v`: the characters `cs` are blanks, an optional minus sign and digits of the 64-bit
integer `v`. The parser of literals takes exactly these texts (`on_literal_append`,
`on_literal_eq_done`), as long as no further digit follows. A written integer is one of them
(`spells_ofInt64`). Words behind blanks are taken in the same way (`on_blanks_word`,
`on_blanks_word_eq_done`), and so are words behind a gap (`on_blanks1_word`,
`on_blanks1_word_eq_done`).
-/

namespace ArithTree.Parser

/-- Blanks and nothing else. -/
def Blanks (cs : List Char) : Prop := ∀ c ∈ cs, isBlank c

/-- Blanks that set two words apart. -/
def Gap (cs : List Char) : Prop := cs ≠ [] ∧ Blanks cs

/-- The sign in front of the digits. -/
def minus (negative : Bool) : List Char := if negative then ['-'] else []

/-- Blanks, an optional minus sign and at least one digit, with the value `v`. -/
def Spells (cs : List Char) (v : Int64) : Prop :=
  ∃ w negative ds, cs = w ++ (minus negative ++ ds) ∧ Blanks w ∧ Numeral.isRun ds ∧
    v.toInt = Numeral.signed negative (Numeral.toNat ds)

/-- No digit comes first. -/
def NoDigit (cs : List Char) : Prop := ∀ c ∈ cs.head?, ¬ c.isDigit

/-- A word that cannot be taken for blanks. -/
def isSolid (w : String) : Bool := w.toList.head?.any fun c => !isBlank c

/-! ## Blanks -/

theorem Blanks.nil : Blanks [] := by simp [Blanks]

theorem Blanks.append {v w : List Char} (hv : Blanks v) (hw : Blanks w) : Blanks (v ++ w) :=
  fun c hc => (List.mem_append.1 hc).elim (hv c) (hw c)

theorem Blanks.not_mem {w : List Char} {c : Char} (hw : Blanks w) (hc : isBlank c = false) :
    c ∉ w := by
  intro hmem
  rw [hw c hmem] at hc
  cases hc

theorem Blanks.dropWhile_append {w : List Char} (hw : Blanks w) (cs : List Char) :
    (w ++ cs).dropWhile isBlank = cs.dropWhile isBlank :=
  List.dropWhile_append_of_pos hw

theorem Blanks.dropWhile {w : List Char} (hw : Blanks w) : w.dropWhile isBlank = [] := by
  simpa using hw.dropWhile_append []

theorem blanks_takeWhile (cs : List Char) : Blanks (cs.takeWhile isBlank) :=
  List.all_eq_true.1 List.all_takeWhile

theorem blanks_space : Blanks [' '] := by
  simp [Blanks, isBlank]

theorem gap_space : Gap [' '] := ⟨by simp, blanks_space⟩

theorem dropWhile_isBlank_idem (cs : List Char) :
    (cs.dropWhile isBlank).dropWhile isBlank = cs.dropWhile isBlank := by
  have h := (blanks_takeWhile cs).dropWhile_append (cs.dropWhile isBlank)
  rw [List.takeWhile_append_dropWhile] at h
  exact h.symm

theorem blanks_append_dropWhile (cs : List Char) :
    ∃ w, Blanks w ∧ cs = w ++ cs.dropWhile isBlank :=
  ⟨_, blanks_takeWhile cs, List.takeWhile_append_dropWhile.symm⟩

theorem dropWhile_solid {w : String} (hw : isSolid w) (cs : List Char) :
    (w.toList ++ cs).dropWhile isBlank = w.toList ++ cs := by
  unfold isSolid at hw
  cases h : w.toList with
  | nil => simp [h] at hw
  | cons c w => exact List.dropWhile_cons_of_neg (by simpa [h] using hw)

theorem Blanks.dropWhile_append_solid {v : List Char} {w : String} (hv : Blanks v)
    (hw : isSolid w) (cs : List Char) :
    (v ++ (w.toList ++ cs)).dropWhile isBlank = w.toList ++ cs := by
  rw [hv.dropWhile_append, dropWhile_solid hw]

theorem isBlank_of_isDigit {c : Char} (h : c.isDigit) : isBlank c = false := by
  cases hb : isBlank c with
  | false => rfl
  | true =>
    simp only [isBlank, Bool.or_eq_true, beq_iff_eq] at hb
    rcases hb with ((rfl | rfl) | rfl) | rfl <;> cases h

/-! ## Words behind blanks -/

section
variable {β : Type} {w : String} {v cs : List Char} {p : Parser β}

theorem on_blanks_word (hw : isSolid w) (hv : Blanks v) (p : Parser β) (cs : List Char) :
    (do blanks; word w; p : Parser β).on (v ++ (w.toList ++ cs)) = p.on cs := by
  rw [on_bind, on_blanks, Outcome.done_andThen, Cursor.rest_start, hv.dropWhile_append_solid hw,
    on_bind, on_word_append, Outcome.done_andThen, Cursor.rest_start]

theorem on_blanks_word_of_mismatch (h : ¬ w.toList <+: cs.dropWhile isBlank) (p : Parser β) :
    (do blanks; word w; p : Parser β).on cs = .refused := by
  rw [on_bind, on_blanks, Outcome.done_andThen, Cursor.rest_start, on_bind, on_word_of_mismatch h,
    Outcome.refused_andThen]

theorem on_blanks1 (hv : Gap v) (cs : List Char) :
    blanks1.on (v ++ cs) = .done () (.start (cs.dropWhile isBlank)) := by
  obtain ⟨c, v, rfl⟩ := List.exists_cons_of_ne_nil hv.1
  have hc : isBlank c = true := hv.2 c List.mem_cons_self
  simp [on, blanks1, Cursor.run, hc, Cursor.ext_rest_iff, ← hv.2.dropWhile_append cs]

theorem on_blanks1_word (hw : isSolid w) (hv : Gap v) (p : Parser β) (cs : List Char) :
    (do blanks1; word w; p : Parser β).on (v ++ (w.toList ++ cs)) = p.on cs := by
  rw [on_bind, on_blanks1 hv, Outcome.done_andThen, Cursor.rest_start, dropWhile_solid hw,
    on_bind, on_word_append, Outcome.done_andThen, Cursor.rest_start]

theorem on_blanks_word_eq_done {b : β} {next : Cursor}
    (h : (do blanks; word w; p : Parser β).on cs = .done b next) :
    ∃ v rest, Blanks v ∧ cs = v ++ (w.toList ++ rest) ∧ p.on rest = .done b next := by
  simp only [on_bind_eq_done, on_blanks] at h
  obtain ⟨_, _, ⟨⟩, _, middle, hword, h⟩ := h
  obtain ⟨v, hv, hcs⟩ := blanks_append_dropWhile cs
  rw [Cursor.rest_start] at hword
  exact ⟨v, middle.rest, hv, by rw [← on_word_eq_done.1 hword, ← hcs], h⟩

theorem on_blanks1_eq_done {u : Unit} {next : Cursor} (h : blanks1.on cs = .done u next) :
    ∃ g, Gap g ∧ cs = g ++ next.rest := by
  unfold on blanks1 at h
  split at h
  · cases h
  · rename_i hrun
    cases h
    refine ⟨cs.takeWhile isBlank, ⟨fun hnil => hrun ?_, blanks_takeWhile cs⟩, ?_⟩
    · rw [Cursor.run, Cursor.rest_start, hnil]
      rfl
    · rw [Cursor.rest_skip, Cursor.rest_start, List.takeWhile_append_dropWhile]

theorem on_blanks1_word_eq_done {b : β} {next : Cursor}
    (h : (do blanks1; word w; p : Parser β).on cs = .done b next) :
    ∃ g rest, Gap g ∧ cs = g ++ (w.toList ++ rest) ∧ p.on rest = .done b next := by
  obtain ⟨_, m, hgap, h⟩ := on_bind_eq_done.1 h
  obtain ⟨_, m', hword, h⟩ := on_bind_eq_done.1 h
  obtain ⟨g, hg, hcs⟩ := on_blanks1_eq_done hgap
  exact ⟨g, m'.rest, hg, by rw [← on_word_eq_done.1 hword, ← hcs], h⟩

end

/-! ## Places in joined texts -/

section
variable {a b p z : List Char} {c : Char}

/-- A place in a joined text is a place in one of the parts. -/
theorem append_eq_append_cons (h : a ++ b = p ++ c :: z) :
    (∃ z', a = p ++ c :: z') ∨ ∃ p', p = a ++ p' ∧ b = p' ++ c :: z := by
  rcases List.append_eq_append_iff.1 h with ⟨p', hp, hb⟩ | ⟨q, ha, hq⟩
  · exact .inr ⟨p', hp, hb⟩
  · rcases List.cons_eq_append_iff.1 hq with ⟨rfl, hb⟩ | ⟨z', rfl, -⟩
    · exact .inr ⟨[], by simpa using ha.symm, hb⟩
    · exact .inl ⟨z', ha⟩

theorem append_eq_append_cons_of_not_mem (hc : c ∉ a) (h : a ++ b = p ++ c :: z) :
    ∃ p', p = a ++ p' ∧ b = p' ++ c :: z := by
  rcases append_eq_append_cons h with ⟨z', rfl⟩ | h
  · simp at hc
  · exact h

/-- The first place of a character, or one behind it. -/
theorem append_cons_eq_append_cons (hc : c ∉ a) (h : a ++ c :: b = p ++ c :: z) :
    p = a ∨ ∃ p', p = a ++ c :: p' ∧ b = p' ++ c :: z := by
  obtain ⟨q, rfl, hq⟩ := append_eq_append_cons_of_not_mem hc h
  cases q with
  | nil => exact .inl (List.append_nil a)
  | cons d q =>
    rw [List.cons_append, List.cons.injEq] at hq
    obtain ⟨rfl, hb⟩ := hq
    exact .inr ⟨q, rfl, hb⟩

end

/-! ## Digits -/

theorem NoDigit.takeWhile {cs : List Char} (h : NoDigit cs) : cs.takeWhile Char.isDigit = [] := by
  cases cs with
  | nil => rfl
  | cons c cs => exact List.takeWhile_cons_of_neg (h c rfl)

theorem NoDigit.dropWhile {cs : List Char} (h : NoDigit cs) : cs.dropWhile Char.isDigit = cs := by
  cases cs with
  | nil => rfl
  | cons c cs => exact List.dropWhile_cons_of_neg (h c rfl)

theorem NoDigit.blanks_append {w cs : List Char} (hw : Blanks w) (h : NoDigit cs) :
    NoDigit (w ++ cs) := by
  cases w with
  | nil => exact h
  | cons c w =>
    rintro _ ⟨⟩ hd
    have := hw c List.mem_cons_self
    simp [isBlank_of_isDigit hd] at this

theorem Blanks.noDigit {w : List Char} (hw : Blanks w) : NoDigit w := by
  rw [← List.append_nil w]
  exact .blanks_append hw (by simp [NoDigit])

theorem noDigit_dropWhile (cs : List Char) : NoDigit (cs.dropWhile Char.isDigit) := by
  intro c hc
  have := List.head?_dropWhile_not Char.isDigit cs
  rw [hc] at this
  simpa using this

theorem on_digits (cs : List Char) :
    digits.on cs = if Numeral.isRun (cs.takeWhile Char.isDigit) then
      .done (cs.takeWhile Char.isDigit) (.start (cs.dropWhile Char.isDigit)) else .refused := by
  have hall : (cs.takeWhile Char.isDigit).all Char.isDigit = true := List.all_takeWhile
  have hnext : (Cursor.start cs).skip Char.isDigit = .start (cs.dropWhile Char.isDigit) := by
    simp [Cursor.ext_rest_iff]
  cases hrun : (cs.takeWhile Char.isDigit).isEmpty <;>
    simp [on, digits, Cursor.run, Numeral.isRun, hall, hrun, hnext]

theorem on_digits_append {ds cs : List Char} (hds : Numeral.isRun ds) (hcs : NoDigit cs) :
    digits.on (ds ++ cs) = .done ds (.start cs) := by
  have hall := (Numeral.isRun_iff.1 hds).2
  rw [on_digits, List.takeWhile_append_of_pos hall, List.dropWhile_append_of_pos hall,
    hcs.takeWhile, hcs.dropWhile, List.append_nil, if_pos hds]

theorem on_digits_of_noDigit {cs : List Char} (h : NoDigit cs) : digits.on cs = .refused := by
  rw [on_digits, h.takeWhile]
  rfl

theorem on_digits_eq_done {cs ds : List Char} {next : Cursor} :
    digits.on cs = .done ds next ↔
      cs = ds ++ next.rest ∧ Numeral.isRun ds ∧ NoDigit next.rest := by
  refine ⟨fun h => ?_, fun ⟨hcs, hds, hn⟩ => ?_⟩
  · rw [on_digits] at h
    split at h
    · rename_i hrun
      cases h
      exact ⟨by simp, hrun, noDigit_dropWhile cs⟩
    · cases h
  · rw [hcs, on_digits_append hds hn, Cursor.start_rest]

/-! ## Integers -/

theorem on_optional_append (w : String) (cs : List Char) :
    (optional w).on (w.toList ++ cs) = .done true (.start cs) := by
  simp [optional]

theorem on_optional_of_mismatch {w : String} {cs : List Char} (h : ¬ w.toList <+: cs) :
    (optional w).on cs = .done false (.start cs) := by
  simp [optional, on_word_of_mismatch h]

theorem on_optional_minus (negative : Bool) {cs : List Char} (h : ¬ '-' ∈ cs.head?) :
    (optional "-").on (minus negative ++ cs) = .done negative (.start cs) := by
  cases negative with
  | true => exact on_optional_append "-" cs
  | false =>
    refine on_optional_of_mismatch fun ⟨rest, hrest⟩ => h ?_
    rw [show cs = "-".toList ++ rest from hrest.symm]
    rfl

theorem on_optional_minus_eq_done {cs : List Char} {negative : Bool} {next : Cursor}
    (h : (optional "-").on cs = .done negative next) : cs = minus negative ++ next.rest := by
  by_cases hp : "-".toList <+: cs
  · obtain ⟨rest, rfl⟩ := hp
    rw [on_optional_append] at h
    cases h
    rfl
  · rw [on_optional_of_mismatch hp] at h
    cases h
    rfl

/-- What the parser of integers does after the digits. -/
def ofDigits (negative : Bool) (ds : List Char) : Parser Int64 :=
  match narrow? (Numeral.signed negative (Numeral.toNat ds)) with
  | some v => pure v
  | none => expected .integer

theorem on_ofDigits_eq_done {negative : Bool} {ds cs : List Char} {v : Int64} {next : Cursor} :
    (ofDigits negative ds).on cs = .done v next ↔
      v.toInt = Numeral.signed negative (Numeral.toNat ds) ∧ next = .start cs := by
  rw [← narrow?_eq_some_iff]
  unfold ofDigits
  cases narrow? (Numeral.signed negative (Numeral.toNat ds)) with
  | some u => simp [eq_comm]
  | none => simp

theorem on_integer (cs : List Char) : integer.on cs =
    ((optional "-").on (cs.dropWhile isBlank)).andThen fun negative rest =>
      (digits.on rest).andThen fun ds rest => (ofDigits negative ds).on rest := by
  simp only [integer, on_bind, on_blanks, Outcome.done_andThen, Cursor.rest_start]
  rfl

theorem exists_head_of_isRun {ds : List Char} (hds : Numeral.isRun ds) (cs : List Char) :
    ∃ d ∈ (ds ++ cs).head?, d.isDigit := by
  obtain ⟨hne, hall⟩ := Numeral.isRun_iff.1 hds
  obtain ⟨d, ds, rfl⟩ := List.exists_cons_of_ne_nil hne
  exact ⟨d, rfl, hall d List.mem_cons_self⟩

/-- Behind its blanks an integer starts with the sign or a digit. -/
theorem dropWhile_minus (negative : Bool) {ds : List Char} (hds : Numeral.isRun ds)
    (cs : List Char) :
    (minus negative ++ (ds ++ cs)).dropWhile isBlank = minus negative ++ (ds ++ cs) := by
  obtain ⟨d, hd, hdig⟩ := exists_head_of_isRun hds cs
  obtain ⟨rest, hrest⟩ := List.head?_eq_some_iff.1 hd
  rw [hrest]
  cases negative with
  | true => rfl
  | false => exact List.dropWhile_cons_of_neg (by simp [isBlank_of_isDigit hdig])

theorem on_integer_append {a cs : List Char} {v : Int64} (ha : Spells a v) (hcs : NoDigit cs) :
    integer.on (a ++ cs) = .done v (.start cs) := by
  obtain ⟨w, negative, ds, rfl, hw, hds, hv⟩ := ha
  have hsign : '-' ∉ (ds ++ cs).head? := by
    obtain ⟨d, hd, hdig⟩ := exists_head_of_isRun hds cs
    rw [hd]
    rintro ⟨⟩
    cases hdig
  rw [on_integer, List.append_assoc, List.append_assoc, hw.dropWhile_append,
    dropWhile_minus negative hds, on_optional_minus negative hsign, Outcome.done_andThen,
    Cursor.rest_start, on_digits_append hds hcs, Outcome.done_andThen, Cursor.rest_start]
  exact on_ofDigits_eq_done.2 ⟨hv, rfl⟩

theorem on_integer_eq_done {cs : List Char} {v : Int64} {next : Cursor}
    (h : integer.on cs = .done v next) : ∃ a, cs = a ++ next.rest ∧ Spells a v := by
  simp only [on_integer, Outcome.andThen_eq_done] at h
  obtain ⟨negative, c, hsign, ds, c', hds, hend⟩ := h
  obtain ⟨hc, hrun, -⟩ := on_digits_eq_done.1 hds
  obtain ⟨hv, rfl⟩ := on_ofDigits_eq_done.1 hend
  refine ⟨cs.takeWhile isBlank ++ (minus negative ++ ds), ?_, _, negative, ds, rfl,
    blanks_takeWhile cs, hrun, hv⟩
  rw [List.append_assoc, List.append_assoc, Cursor.rest_start, ← hc,
    ← on_optional_minus_eq_done hsign, List.takeWhile_append_dropWhile]

/-- No literal starts with anything but blanks, a minus sign and digits. -/
theorem on_integer_of_head {cs : List Char} (h : ∀ c ∈ (cs.dropWhile isBlank).head?, c ≠ '-')
    (hd : NoDigit (cs.dropWhile isBlank)) : integer.on cs = .refused := by
  have hsign : (optional "-").on (cs.dropWhile isBlank) = .done false (.start _) :=
    on_optional_minus false fun hc => h _ hc rfl
  rw [on_integer, hsign, Outcome.done_andThen, Cursor.rest_start, on_digits_of_noDigit hd,
    Outcome.refused_andThen]

/-! ## Literals -/

theorem on_literal (cs : List Char) : literal.on cs =
    (integer.on cs).andThen fun v rest => .done (.number v) (.start rest) := by
  simp [literal]

theorem on_literal_append {a cs : List Char} {v : Int64} (ha : Spells a v) (hcs : NoDigit cs) :
    literal.on (a ++ cs) = .done (.number v) (.start cs) := by
  simp [on_literal, on_integer_append ha hcs]

theorem on_literal_eq_done {cs : List Char} {e : Expr} {next : Cursor}
    (h : literal.on cs = .done e next) :
    ∃ a v, cs = a ++ next.rest ∧ Spells a v ∧ e = .number v := by
  rw [on_literal, Outcome.andThen_eq_done] at h
  obtain ⟨v, c, hv, h⟩ := h
  cases h
  obtain ⟨a, hcs, ha⟩ := on_integer_eq_done hv
  exact ⟨a, v, by simpa using hcs, ha, rfl⟩

theorem on_literal_of_head {cs : List Char} (h : ∀ c ∈ (cs.dropWhile isBlank).head?, c ≠ '-')
    (hd : NoDigit (cs.dropWhile isBlank)) : literal.on cs = .refused := by
  rw [on_literal, on_integer_of_head h hd, Outcome.refused_andThen]

theorem on_literal_of_word {w : String} {v : List Char}
    (h : ∀ c ∈ w.toList.head?, c ≠ '-' ∧ ¬ c.isDigit) (hw : isSolid w) (hv : Blanks v)
    (cs : List Char) : literal.on (v ++ (w.toList ++ cs)) = .refused := by
  have hhead : ∀ c ∈ (w.toList ++ cs).head?, c ≠ '-' ∧ ¬ c.isDigit := by
    intro c hc
    cases hcs : w.toList with
    | nil => simp [isSolid, hcs] at hw
    | cons d ds =>
      rw [hcs] at h hc
      exact h c hc
  have hdrop := hv.dropWhile_append_solid hw cs
  refine on_literal_of_head (fun c hc => ?_) fun c hc => ?_ <;> rw [hdrop] at hc
  · exact (hhead c hc).1
  · exact (hhead c hc).2

/-! ## Characters of integers -/

theorem Spells.mem {cs : List Char} {v : Int64} (h : Spells cs v) {c : Char} (hc : c ∈ cs) :
    isBlank c ∨ c = '-' ∨ c.isDigit := by
  obtain ⟨w, negative, ds, rfl, hw, hds, -⟩ := h
  rcases List.mem_append.1 hc with hc | hc
  · exact .inl (hw c hc)
  rcases List.mem_append.1 hc with hc | hc
  · refine .inr (.inl ?_)
    cases negative
    · cases hc
    · exact List.mem_singleton.1 hc
  · exact .inr (.inr ((Numeral.isRun_iff.1 hds).2 c hc))

/-! ## Written integers -/

theorem spells_ofInt64 (v : Int64) : Spells (Numeral.ofInt64 v) v := by
  rw [Numeral.ofInt64]
  cases h : v.toInt with
  | ofNat n =>
    exact ⟨[], false, Numeral.ofNat n, rfl, .nil, Numeral.isRun_ofNat n,
      by simp [h, Numeral.signed]⟩
  | negSucc n =>
    exact ⟨[], true, Numeral.ofNat (n + 1), rfl, .nil, Numeral.isRun_ofNat (n + 1),
      by simp [h, Numeral.signed, Int.negSucc_eq]⟩

end ArithTree.Parser
