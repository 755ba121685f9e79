import ArithTree.Proofs.Form.Layout

/-!
# The segmentation of a source

The tokens of a source are those of its layout. So they are all of the source but for its white space
(`flatMap_chars_scan`), and a run of plain characters lies inside one of them (`scan_around`). They
can be found in another way: set off every parenthesis by spaces and take the words between white
space (`scans_words`). Both ways take a text apart as a layout does, and there is only one such way.
-/

namespace ArithTree

namespace Token

/-! ## The characters of the tokens -/

theorem IsProper.isWhite_eq_false {t : Token} (h : t.IsProper) {c : Char} (hc : c ∈ t.chars) :
    Text.isWhite c = false := by
  cases t with
  | opening => cases List.mem_singleton.1 hc; rfl
  | closing => cases List.mem_singleton.1 hc; rfl
  | word w => exact isWhite_eq_false_of_isPlain (h.2 c hc)

/-- A scan leaves out the white space and nothing else. -/
theorem flatMap_chars_scan (cs : List Char) :
    (scan cs).flatMap chars = cs.filter fun c => !Text.isWhite c := by
  have hwhite {white : List Char} (h : ∀ c ∈ white, Text.isWhite c) :
      white.filter (fun c => !Text.isWhite c) = [] := by
    rw [List.filter_eq_nil_iff]
    intro c hc
    simp [h c hc]
  have hslot (s : Slot) : s.text.filter (fun c => !Text.isWhite c) = s.token.chars := by
    rw [Slot.text, List.filter_append, hwhite s.isWhite, List.append_nil, List.filter_eq_self]
    intro c hc
    simp [s.isProper.isWhite_eq_false hc]
  obtain ⟨l, rfl, htokens⟩ := exists_layout cs
  rw [← htokens, Layout.tokens, Layout.text, List.filter_append, hwhite l.isWhite,
    List.nil_append, List.filter_flatMap, List.flatMap_map]
  simp only [hslot]

/-! ## Runs of plain characters -/

/-- A run of plain characters lies inside one word. -/
theorem scan_around {run : List Char} (h : IsWord run) (before behind : List Char) :
    ∃ a x y b, before = a ++ x ∧ behind = y ++ b ∧ scan (before ++ (run ++ behind)) =
      scan a ++ .word (String.ofList (x ++ (run ++ y))) :: scan b := by
  -- The word is as long as possible on both sides of the run.
  let a := before.rdropWhile isPlain
  let x := before.rtakeWhile isPlain
  let y := behind.takeWhile isPlain
  let b := behind.dropWhile isPlain
  have hbefore : before = a ++ x := List.rdropWhile_append_rtakeWhile.symm
  have hbehind : behind = y ++ b := List.takeWhile_append_dropWhile.symm
  have hword : IsWord (x ++ (run ++ y)) := by
    refine ⟨by simp [h.1], fun c hc => ?_⟩
    rw [List.mem_append, List.mem_append] at hc
    rcases hc with hx | hrun | hy
    · exact List.mem_rtakeWhile_imp hx
    · exact h.2 c hrun
    · exact List.mem_takeWhile_imp hy
  have hend : ∀ c ∈ b.head?, isPlain c = false := by
    intro c hc
    have hstop := List.head?_dropWhile_not isPlain behind
    rw [show (behind.dropWhile isPlain).head? = some c from hc] at hstop
    exact hstop
  refine ⟨a, x, y, b, hbefore, hbehind, ?_⟩
  calc scan (before ++ (run ++ behind))
      = scan ((a ++ x) ++ (run ++ (y ++ b))) := by rw [← hbefore, ← hbehind]
    _ = scan (a ++ ((x ++ (run ++ y)) ++ b)) := by simp only [List.append_assoc]
    _ = scan a ++ scan ((x ++ (run ++ y)) ++ b) := scan_rdropWhile_append before _
    _ = scan a ++ .word (String.ofList (x ++ (run ++ y))) :: scan b := by
      rw [scan_word_append hword hend]

/-! ## Words between white space -/

/-- The text with a space on both sides of every `mark`. -/
def setOff (mark : Char) (cs : List Char) : List Char :=
  cs.flatMap fun c => if c = mark then [' ', c, ' '] else [c]

/-- The text with spaces around its parentheses. -/
def padded (cs : List Char) : List Char := setOff ')' (setOff '(' cs)

/-- The words between white space. -/
def words (cs : List Char) : List (List Char) :=
  (cs.splitOnP Text.isWhite).filter fun w => !w.isEmpty

section
variable {w cs : List Char} {c mark : Char}

theorem words_white (h : Text.isWhite c) (cs : List Char) : words (c :: cs) = words cs := by
  simp [words, List.splitOnP_cons_eq_if_modifyHead, h]

theorem words_append (hne : w ≠ []) (hw : ∀ c ∈ w, Text.isWhite c = false)
    (hcs : ∀ c ∈ cs.head?, Text.isWhite c) : words (w ++ cs) = w :: words cs := by
  cases cs with
  | nil => simp [words, List.splitOnP_eq_singleton hw, hne]
  | cons c cs =>
    have hc : Text.isWhite c := hcs c rfl
    rw [words_white hc]
    simp [words, List.splitOnP_append_cons_of_forall_mem hw c hc, hne]

theorem words_spaces (h : Text.isWhite c = false) (cs : List Char) :
    words (' ' :: c :: ' ' :: cs) = [c] :: words cs := by
  have hword : ∀ a ∈ [c], Text.isWhite a = false := by simp [h]
  have hspace : ∀ a ∈ (' ' :: cs).head?, Text.isWhite a := by
    rintro _ ⟨⟩
    rfl
  rw [words_white rfl, ← List.singleton_append, words_append (List.cons_ne_nil _ _) hword hspace,
    words_white rfl]

theorem setOff_of_not_mem (h : mark ∉ cs) : setOff mark cs = cs := by
  induction cs with
  | nil => rfl
  | cons c cs ih =>
    rw [List.mem_cons, not_or] at h
    rw [setOff, List.flatMap_cons, if_neg (Ne.symm h.1), ← setOff, ih h.2]
    rfl

theorem padded_append (cs ds : List Char) : padded (cs ++ ds) = padded cs ++ padded ds := by
  simp [padded, setOff]

/-- Only parentheses are set off. -/
theorem padded_of_forall (h : ∀ c ∈ cs, c ≠ '(' ∧ c ≠ ')') : padded cs = cs := by
  have hopen : '(' ∉ cs := fun hmem => (h _ hmem).1 rfl
  have hclose : ')' ∉ cs := fun hmem => (h _ hmem).2 rfl
  rw [padded, setOff_of_not_mem hopen, setOff_of_not_mem hclose]

theorem padded_white (h : Text.isWhite c) (cs : List Char) : padded (c :: cs) = c :: padded cs := by
  have hc : ∀ a ∈ [c], a ≠ '(' ∧ a ≠ ')' := by
    intro a ha
    cases List.mem_singleton.1 ha
    constructor
    · rintro rfl
      cases h
    · rintro rfl
      cases h
  rw [← List.singleton_append, padded_append, padded_of_forall hc]
  rfl

theorem padded_word (h : IsWord w) : padded w = w := by
  refine padded_of_forall fun c hc => ⟨?_, ?_⟩
  · rintro rfl
    cases h.2 _ hc
  · rintro rfl
    cases h.2 _ hc

/-- In a padded text, white space follows wherever a word has to end. -/
theorem isWhite_of_head?_padded (h : ∀ c ∈ cs.head?, isPlain c = false) :
    ∀ c ∈ (padded cs).head?, Text.isWhite c := by
  intro a ha
  cases cs with
  | nil => cases ha
  | cons c cs =>
    rcases isPlain_eq_false_iff.1 (h c rfl) with hwhite | ⟨t, ht, hchars⟩
    · rw [padded_white hwhite] at ha
      obtain rfl : c = a := Option.some.inj ha
      exact hwhite
    · cases t with
      | opening => cases hchars; cases ha; rfl
      | closing => cases hchars; cases ha; rfl
      | word w => exact ht.elim

end

/-- The words of a padded text, as tokens. -/
def tokensOfWords (cs : List Char) : List Token :=
  (words (padded cs)).map fun w => ofText (String.ofList w)

theorem scans_words : Scans tokensOfWords where
  nil := rfl
  white h cs := by rw [tokensOfWords, padded_white h, words_white h, tokensOfWords]
  opening cs := by
    have hpad : padded ('(' :: cs) = ' ' :: '(' :: ' ' :: padded cs := padded_append ['('] cs
    rw [tokensOfWords, hpad, words_spaces rfl]
    rfl
  closing cs := by
    have hpad : padded (')' :: cs) = ' ' :: ')' :: ' ' :: padded cs := padded_append [')'] cs
    rw [tokensOfWords, hpad, words_spaces rfl]
    rfl
  word h hcs := by
    have hwhite := fun c hc => isWhite_eq_false_of_isPlain (h.2 c hc)
    rw [tokensOfWords, padded_append, padded_word h,
      words_append h.1 hwhite (isWhite_of_head?_padded hcs), List.map_cons, ofText_ofList h]
    rfl

/-- **A source is cut into its tokens.** Tokens are those of a source exactly if the source is a
layout of them: parentheses and proper words, with white space anywhere around them and between any
two words. So the tokens are the source without its white space. A run of plain characters is not
cut, but lies inside one word. And the tokens are the words between white space, after every
parenthesis was set off by spaces. -/
theorem ofSource_segmentation (source : String) :
    (∀ ts, ofSource source = ts ↔ ∃ l : Layout, l.text = source.toList ∧ l.tokens = ts) ∧
    (∀ t ∈ ofSource source, t.IsProper) ∧
    (ofSource source).flatMap chars = source.toList.filter (fun c => !Text.isWhite c) ∧
    (∀ before run behind, source.toList = before ++ (run ++ behind) → IsWord run →
      ∃ a x y b, before = a ++ x ∧ behind = y ++ b ∧ ofSource source =
        scan a ++ .word (String.ofList (x ++ (run ++ y))) :: scan b) ∧
    ofSource source = tokensOfWords source.toList := by
  refine ⟨fun ts => ⟨?_, ?_⟩, fun t => isProper_of_mem_scan, flatMap_chars_scan _, ?_, ?_⟩
  · rintro rfl
    exact exists_layout source.toList
  · rintro ⟨l, htext, rfl⟩
    rw [ofSource, ← htext, scans_scan.text]
  · intro before run behind hsource hrun
    rw [ofSource, hsource]
    exact scan_around hrun before behind
  · rw [ofSource, scans_scan.unique scans_words]

/-- The tokens of a source with a no-break space in it, and the word around two of its letters. -/
theorem ofSource_segmentation_touching :
    ofSource "(add\u00a0 one)two" =
        [.opening, .word "add", .word "one", .closing, .word "two"] ∧
      IsProper (.word "one") ∧
      ∃ a x y b, "(add\u00a0 o".toList = a ++ x ∧ ")two".toList = y ++ b ∧
        ofSource "(add\u00a0 one)two" =
          scan a ++ .word (String.ofList (x ++ ("ne".toList ++ y))) :: scan b := by
  obtain ⟨-, proper, -, uncut, hwords⟩ := ofSource_segmentation "(add\u00a0 one)two"
  have hsource : ofSource "(add\u00a0 one)two" =
      [.opening, .word "add", .word "one", .closing, .word "two"] := by
    rw [hwords]
    decide
  have hmem : .word "one" ∈ ofSource "(add\u00a0 one)two" := by
    rw [hsource]
    simp
  exact ⟨hsource, proper _ hmem, uncut _ _ _ (by decide) (by decide)⟩

end Token

end ArithTree
