import ArithTree.Form.Denotation
import ArithTree.Written
import Mathlib.Data.List.DropRight
import Mathlib.Data.List.SplitBy

/-!
# Scanning texts

How a scan takes the pieces of a text one after another: a parenthesis is a token of its own
(`scan_opening`, `scan_closing`), a white character none (`scan_white`), and a word up to the next
of these is one token (`scan_word_append`). So a written tree scans to the tokens of the tree,
whatever comes after its last parenthesis (`scan_sexpr_append`).
-/

namespace ArithTree

namespace Token

/-- Characters that form one word. -/
def IsWord (cs : List Char) : Prop := cs ≠ [] ∧ ∀ c ∈ cs, isPlain c

instance (cs : List Char) : Decidable (IsWord cs) :=
  decidable_of_iff (cs ≠ [] ∧ cs.all isPlain) (by rw [IsWord, List.all_eq_true])

/-! ## Pieces of a text -/

section
variable {w cs : List Char} {c : Char}

theorem scan_append (h : ∀ a ∈ w.getLast?, ∀ b ∈ cs.head?, joined a b = false) :
    scan (w ++ cs) = scan w ++ scan cs := by
  rw [scan, List.splitBy_append h, List.filterMap_append]
  rfl

/-- What follows the last character that cannot stand in a word is scanned by itself. -/
theorem scan_rdropWhile_append (w cs : List Char) :
    scan (w.rdropWhile isPlain ++ cs) = scan (w.rdropWhile isPlain) ++ scan cs := by
  refine scan_append fun a ha b _ => ?_
  obtain ⟨hne, hlast⟩ := List.mem_getLast?_eq_getLast ha
  have hplain := List.rdropWhile_last_not isPlain w hne
  rw [← hlast, Bool.not_eq_true] at hplain
  rw [joined, hplain, Bool.false_and]

/-- No run goes on behind a character that cannot stand in a word. -/
theorem scan_cons_of_not_isPlain (h : isPlain c = false) (cs : List Char) :
    scan (c :: cs) = scan [c] ++ scan cs := by
  rw [← List.singleton_append]
  refine scan_append fun a ha b _ => ?_
  obtain rfl : c = a := by simpa using ha
  rw [joined, h, Bool.false_and]

theorem scan_opening (cs : List Char) : scan ('(' :: cs) = .opening :: scan cs :=
  scan_cons_of_not_isPlain rfl cs

theorem scan_closing (cs : List Char) : scan (')' :: cs) = .closing :: scan cs :=
  scan_cons_of_not_isPlain rfl cs

theorem scan_white (h : Text.isWhite c) (cs : List Char) : scan (c :: cs) = scan cs := by
  rw [scan_cons_of_not_isPlain (by simp [isPlain, h])]
  simp [scan, List.splitBy, List.splitBy.loop, ofRun?, h]

theorem ofText_ofList (h : IsWord w) : ofText (String.ofList w) = .word (String.ofList w) := by
  have hne (c : Char) (hc : isPlain c = false) : String.ofList w ≠ String.ofList [c] := by
    rw [ne_eq, String.ofList_inj]
    rintro rfl
    simpa [hc] using h.2 c List.mem_cons_self
  rw [ofText, if_neg (hne '(' rfl), if_neg (hne ')' rfl)]

theorem scan_word (h : IsWord w) : scan w = [.word (String.ofList w)] := by
  have hrun : w.IsChain fun a b => joined a b := by
    refine List.Pairwise.isChain (List.pairwise_of_forall_mem_list fun a ha b hb => ?_)
    simp [joined, h.2 a ha, h.2 b hb]
  have hwhite : w.all Text.isWhite = false := by
    obtain ⟨c, w, rfl⟩ := List.exists_cons_of_ne_nil h.1
    have := h.2 c List.mem_cons_self
    simp_all [isPlain]
  rw [scan, List.splitBy_of_isChain h.1 hrun, List.filterMap_cons, List.filterMap_nil, ofRun?,
    hwhite, if_neg Bool.false_ne_true, ofText_ofList h]

theorem scan_word_append (h : IsWord w) (hcs : ∀ c ∈ cs.head?, isPlain c = false) :
    scan (w ++ cs) = .word (String.ofList w) :: scan cs := by
  rw [scan_append, scan_word h, List.singleton_append]
  intro a _ b hb
  rw [joined, hcs b hb, Bool.and_false]

theorem scan_space (cs : List Char) : scan (' ' :: cs) = scan cs :=
  scan_white rfl cs

theorem scan_word_space (h : IsWord w) (cs : List Char) :
    scan (w ++ ' ' :: cs) = .word (String.ofList w) :: scan cs := by
  have hspace : ∀ c ∈ (' ' :: cs).head?, isPlain c = false := by
    rintro _ ⟨⟩
    rfl
  rw [scan_word_append h hspace, scan_space]

/-! ## White ends -/

theorem scan_dropWhile_white (cs : List Char) : scan (cs.dropWhile Text.isWhite) = scan cs := by
  induction cs with
  | nil => rfl
  | cons c cs ih =>
    by_cases h : Text.isWhite c
    · rw [List.dropWhile_cons_of_pos h, ih, scan_white h]
    · rw [List.dropWhile_cons_of_neg h]

theorem scan_concat_white (h : Text.isWhite c) (cs : List Char) : scan (cs ++ [c]) = scan cs := by
  have hcut : ∀ a ∈ cs.getLast?, ∀ b ∈ [c].head?, joined a b = false := by
    intro a _ b hb
    obtain rfl : c = b := by simpa using hb
    simp [joined, isPlain, h]
  rw [scan_append hcut, scan_white h]
  exact List.append_nil _

theorem scan_rdropWhile_white (cs : List Char) : scan (cs.rdropWhile Text.isWhite) = scan cs := by
  induction cs using List.reverseRec with
  | nil => rfl
  | append_singleton cs c ih =>
    by_cases h : Text.isWhite c
    · rw [List.rdropWhile_concat_pos _ _ _ h, ih, scan_concat_white h]
    · rw [List.rdropWhile_concat_neg _ _ _ h]

/-- White space at the ends of a text has no part in its tokens. -/
theorem scan_trim (cs : List Char) : scan (Text.trim cs) = scan cs := by
  have htrim : Text.trim cs = (cs.dropWhile Text.isWhite).rdropWhile Text.isWhite := rfl
  rw [htrim, scan_rdropWhile_white, scan_dropWhile_white]

theorem ofSource_eq_of_trim_eq {source other : String}
    (h : Text.trim source.toList = Text.trim other.toList) : ofSource source = ofSource other := by
  rw [ofSource, ofSource, ← scan_trim, h, scan_trim]

end

/-! ## Words of written trees -/

theorem isPlain_of_isDigit {c : Char} (h : c.isDigit) : isPlain c := by
  obtain ⟨hlow, hhigh⟩ : 48 ≤ c.toNat ∧ c.toNat ≤ 57 := Char.isDigit_iff_toNat.1 h
  have hwhite : Text.isWhite c = false := by
    simp only [Text.isWhite, Text.whiteRanges, List.any_cons, List.any_nil, Bool.or_false,
      Bool.or_eq_false_iff, Bool.and_eq_false_iff, decide_eq_false_iff_not]
    omega
  have hopen : c ≠ '(' := by
    rintro rfl
    cases h
  have hclose : c ≠ ')' := by
    rintro rfl
    cases h
  simp [isPlain, hopen, hclose, hwhite]

theorem isWord_numberWord : IsWord Form.numberWord.toList := by decide

theorem isWord_keyword (op : Op) : IsWord op.keyword.toList := by
  cases op <;> decide

theorem isWord_ofInt64 (v : Int64) : IsWord (Numeral.ofInt64 v) := by
  rw [Numeral.ofInt64]
  cases v.toInt with
  | ofNat n =>
    exact ⟨Numeral.ofNat_ne_nil n, fun c hc => isPlain_of_isDigit (Numeral.isDigit_of_mem_ofNat hc)⟩
  | negSucc n =>
    refine ⟨List.cons_ne_nil _ _, List.forall_mem_cons.2 ⟨rfl, fun c hc => ?_⟩⟩
    exact isPlain_of_isDigit (Numeral.isDigit_of_mem_ofNat hc)

end Token

/-- The tokens of a written tree. -/
def Tree.tokens : Tree → List Token
  | .lit v =>
    [.opening, .word Form.numberWord, .word (String.ofList (Numeral.ofInt64 v)), .closing]
  | .node op l r => .opening :: .word op.keyword :: (l.tokens ++ (r.tokens ++ [.closing]))

namespace Token

theorem scan_sexpr_append (t : Tree) (cs : List Char) :
    scan (t.sexpr ++ cs) = t.tokens ++ scan cs := by
  induction t generalizing cs with
  | lit v =>
    rw [Tree.sexpr_lit]
    have h : ("(number ".toList ++ Numeral.ofInt64 v ++ [')']) ++ cs =
        '(' :: (Form.numberWord.toList ++ ' ' :: (Numeral.ofInt64 v ++ ')' :: cs)) := by
      simp [Form.numberWord]
    rw [h, scan_opening, scan_word_space isWord_numberWord,
      scan_word_append (isWord_ofInt64 v) (by simp [isPlain]), scan_closing, String.ofList_toList]
    rfl
  | node op l r ihl ihr =>
    rw [Tree.sexpr_node]
    have h : ('(' :: op.keyword.toList ++ ' ' :: l.sexpr ++ ' ' :: r.sexpr ++ [')']) ++ cs =
        '(' :: (op.keyword.toList ++ ' ' :: (l.sexpr ++ ' ' :: (r.sexpr ++ ')' :: cs))) := by
      simp
    rw [h, scan_opening, scan_word_space (isWord_keyword op), ihl, scan_space, ihr, scan_closing,
      String.ofList_toList]
    simp [Tree.tokens]

theorem ofSource_sexpr (t : Tree) : ofSource (String.ofList t.sexpr) = t.tokens := by
  have h := scan_sexpr_append t []
  simpa [ofSource, scan] using h

end Token

end ArithTree
