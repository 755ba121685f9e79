import ArithTree.Proofs.Form.Scan

/-!
# Continuing a source

What comes behind a source can change its last token, but only if that is a word; all the tokens in
front of it stay (`Token.exists_scan_append`). Inside open lists a word decides nothing: as long as
the reader has no verdict it has none after one word more (`Form.readOpen_concat_word`), and once it
has one it looks at no further token (`Form.readOpen_append`). So the verdict on a source that opens
a list is final, whether the source denotes an expression or is refused, unless it ends too early
(`Expr.ofSexpr_append`).
-/

namespace ArithTree

/-- The tokens of a source stay when it is continued, except that a word at the end can grow. -/
theorem Token.exists_scan_append (cs more : List Char) : ∃ ts rest,
    (scan cs = ts ∨ ∃ w, scan cs = ts ++ [.word w]) ∧ scan (cs ++ more) = ts ++ rest := by
  have hsplit : cs = cs.rdropWhile isPlain ++ cs.rtakeWhile isPlain :=
    List.rdropWhile_append_rtakeWhile.symm
  refine ⟨scan (cs.rdropWhile isPlain), scan (cs.rtakeWhile isPlain ++ more), ?_, ?_⟩
  · by_cases hnil : cs.rtakeWhile isPlain = []
    · rw [hnil, List.append_nil] at hsplit
      exact .inl (congrArg scan hsplit)
    · have hword : IsWord (cs.rtakeWhile isPlain) := ⟨hnil, fun _ => List.mem_rtakeWhile_imp⟩
      refine .inr ⟨String.ofList (cs.rtakeWhile isPlain), (congrArg scan hsplit).trans ?_⟩
      rw [scan_rdropWhile_append, scan_word hword]
  · rw [← scan_rdropWhile_append, ← List.append_assoc, ← hsplit]

namespace Form

variable {ts : List Token} {items : List Form} {outer : List (List Form)} {used : Nat}

/-! ## Verdicts of the reader -/

/-- Once there is a verdict, no further token is looked at. -/
theorem readOpen_append (h : readOpen items outer used ts ≠ .error .unexpectedEnd)
    (more : List Token) : readOpen items outer used (ts ++ more) = readOpen items outer used ts := by
  induction ts generalizing items outer used with
  | nil => exact absurd rfl h
  | cons t ts ih =>
    cases t with
    | word w => exact ih h
    | opening =>
      rw [List.cons_append, readOpen, readOpen]
      rw [readOpen] at h
      split
      · rename_i hroom
        rw [if_pos hroom] at h
        exact ih h
      · rfl
    | closing =>
      cases outer with
      | nil => rfl
      | cons next outer => exact ih h

/-- A word is put into the innermost list and decides nothing. -/
theorem readOpen_concat_word (h : readOpen items outer used ts = .error .unexpectedEnd)
    (w : String) : readOpen items outer used (ts ++ [.word w]) = .error .unexpectedEnd := by
  induction ts generalizing items outer used with
  | nil => rfl
  | cons t ts ih =>
    cases t with
    | word v => exact ih h
    | opening =>
      rw [readOpen] at h
      rw [List.cons_append, readOpen]
      split
      · rename_i hroom
        rw [if_pos hroom] at h
        exact ih h
      · rename_i hfull
        rw [if_neg hfull] at h
        cases h
    | closing =>
      cases outer with
      | nil => cases h
      | cons next outer => exact ih h

theorem read_append (h : read ts ≠ .error .unexpectedEnd) (more : List Token) :
    read (ts ++ more) = read ts := by
  cases ts with
  | nil => exact absurd rfl h
  | cons t ts =>
    cases t with
    | opening => exact readOpen_append h more
    | closing => rfl
    | word w => rfl

theorem read_concat_word (hne : ts ≠ []) (h : read ts = .error .unexpectedEnd) (w : String) :
    read (ts ++ [.word w]) = .error .unexpectedEnd := by
  cases ts with
  | nil => exact absurd rfl hne
  | cons t ts =>
    cases t with
    | opening => exact readOpen_concat_word h w
    | closing => cases h
    | word v => cases h

/-- The reader has the same verdict on every continuation of a source that does not start with an
atom. -/
theorem read_ofSource_append {source : String}
    (hatom : ∀ w, (Token.ofSource source).head? ≠ some (.word w))
    (h : read (Token.ofSource source) ≠ .error .unexpectedEnd) (more : String) :
    read (Token.ofSource (source ++ more)) = read (Token.ofSource source) := by
  obtain ⟨ts, rest, hsource, happend⟩ := Token.exists_scan_append source.toList more.toList
  have hmore : Token.ofSource (source ++ more) = ts ++ rest := by
    rw [Token.ofSource, String.toList_append, happend]
  rw [hmore]
  rcases hsource with hts | ⟨w, hword⟩
  · rw [← hts]
    exact read_append h rest
  · have hsource : Token.ofSource source = ts ++ [.word w] := hword
    rw [hsource] at hatom h ⊢
    have hne : ts ≠ [] := by
      rintro rfl
      exact hatom w rfl
    -- The verdict was there before the last word.
    have hverdict : read ts ≠ .error .unexpectedEnd := fun hnone => h (read_concat_word hne hnone w)
    rw [read_append hverdict rest, read_append hverdict [.word w]]

end Form

/-- **The verdict on a closed form is final.** If a source does not start with an atom and does not
end too early, then every continuation of it has the same outcome: the same expression, or the same
error. -/
theorem Expr.ofSexpr_append {source : String}
    (hatom : ∀ w, (Token.ofSource source).head? ≠ some (.word w))
    (h : ofSexpr source ≠ .error .unexpectedEnd) (more : String) :
    ofSexpr (source ++ more) = ofSexpr source := by
  have hread : Form.read (Token.ofSource source) ≠ .error .unexpectedEnd := by
    intro hread
    rw [ofSexpr, hread] at h
    exact h rfl
  rw [ofSexpr, Form.read_ofSource_append hatom hread more, ← ofSexpr]

/-- The word behind the form grows, and the parentheses are not balanced any more. -/
theorem Expr.ofSexpr_append_refused :
    (∀ w, (Token.ofSource "(add x (number 1)) y").head? ≠ some (.word w)) ∧
      ofSexpr "(add x (number 1)) y" ≠ .error .unexpectedEnd ∧
      ofSexpr ("(add x (number 1)) y" ++ "z) ((") = .error (.notForm "x") := by
  have htokens : Token.ofSource "(add x (number 1)) y" = [.opening, .word "add", .word "x", .opening,
      .word "number", .word "1", .closing, .closing, .word "y"] := by decide
  have hatom : ∀ w, (Token.ofSource "(add x (number 1)) y").head? ≠ some (.word w) := by
    simp [htokens]
  have hrefused : ofSexpr "(add x (number 1)) y" = .error (.notForm "x") := by
    rw [ofSexpr, htokens]
    rfl
  have h : ofSexpr "(add x (number 1)) y" ≠ .error .unexpectedEnd := by simp [hrefused]
  exact ⟨hatom, h, (ofSexpr_append hatom h _).trans hrefused⟩

end ArithTree
