import ArithTree.Proofs.Form.Scan

/-!
# Layouts

A layout is a list of tokens with white space before, between and behind them, in which no two words
touch. Every text is the text of a layout (`Layout.exists_text_eq`): a character goes to the white
space in front, is a parenthesis of its own, or joins the word behind it. Whatever takes a text apart
piece by piece, as a scan does, gives back the tokens of the layout (`Scans.text`), so there is only
one such function (`Scans.unique`).
-/

namespace ArithTree

namespace Token

/-- The characters of a token. -/
def chars (t : Token) : List Char := t.text.toList

@[simp] theorem chars_opening : chars .opening = ['('] := rfl

@[simp] theorem chars_closing : chars .closing = [')'] := rfl

@[simp] theorem chars_word (w : String) : chars (.word w) = w.toList := rfl

def IsParenthesis : Token → Prop
  | .opening | .closing => True
  | .word _ => False

/-- A parenthesis, or a word of characters that can stand in one. -/
def IsProper : Token → Prop
  | .opening | .closing => True
  | .word w => IsWord w.toList

theorem IsParenthesis.isProper {t : Token} (h : t.IsParenthesis) : t.IsProper := by
  cases t with
  | opening => trivial
  | closing => trivial
  | word w => exact h.elim

/-! ## Layouts -/

/-- A token with the white space behind it. -/
structure Slot where
  token : Token
  gap : List Char
  isProper : token.IsProper
  isWhite : ∀ c ∈ gap, Text.isWhite c

def Slot.text (s : Slot) : List Char := s.token.chars ++ s.gap

/-- There is white space between the tokens of two slots, or a parenthesis keeps them apart. -/
def Slot.Apart (s next : Slot) : Prop :=
  s.gap ≠ [] ∨ s.token.IsParenthesis ∨ next.token.IsParenthesis

/-- Tokens with white space around them. -/
structure Layout where
  lead : List Char
  slots : List Slot
  isWhite : ∀ c ∈ lead, Text.isWhite c
  apart : slots.IsChain Slot.Apart

namespace Layout

def tokens (l : Layout) : List Token := l.slots.map Slot.token

def text (l : Layout) : List Char := l.lead ++ l.slots.flatMap Slot.text

end Layout

section
variable {c : Char}

theorem isPlain_eq_false_of_isWhite (h : Text.isWhite c) : isPlain c = false := by
  simp [isPlain, h]

theorem isWhite_eq_false_of_isPlain (h : isPlain c) : Text.isWhite c = false := by
  rw [← Bool.not_eq_true]
  intro hwhite
  rw [isPlain_eq_false_of_isWhite hwhite] at h
  cases h

theorem isPlain_eq_false_iff :
    isPlain c = false ↔ Text.isWhite c ∨ ∃ t : Token, t.IsParenthesis ∧ t.chars = [c] := by
  constructor
  · intro h
    simp only [isPlain, Bool.not_eq_eq_eq_not, Bool.not_false, Bool.or_eq_true, beq_iff_eq] at h
    rcases h with (rfl | rfl) | h
    · exact .inr ⟨.opening, trivial, rfl⟩
    · exact .inr ⟨.closing, trivial, rfl⟩
    · exact .inl h
  · rintro (h | ⟨t, ht, hchars⟩)
    · exact isPlain_eq_false_of_isWhite h
    · cases t with
      | opening => cases hchars; rfl
      | closing => cases hchars; rfl
      | word w => exact ht.elim

/-- A word slot ends where the word does. -/
theorem Slot.not_isPlain_behind {s : Slot} {slots : List Slot} (h : (s :: slots).IsChain Apart)
    (hword : ¬ s.token.IsParenthesis) :
    ∀ c ∈ (s.gap ++ slots.flatMap text).head?, isPlain c = false := by
  intro c hc
  cases hgap : s.gap with
  | cons a gap =>
    rw [hgap] at hc
    obtain rfl : a = c := Option.some.inj hc
    exact isPlain_eq_false_of_isWhite (s.isWhite a (hgap ▸ List.mem_cons_self))
  | nil =>
    cases slots with
    | nil => simp [hgap] at hc
    | cons next slots =>
      have hnext : next.token.IsParenthesis := by
        rcases (List.isChain_cons_cons.1 h).1 with hne | hpar | hnext
        · exact absurd hgap hne
        · exact absurd hpar hword
        · exact hnext
      refine isPlain_eq_false_iff.2 (.inr ⟨next.token, hnext, ?_⟩)
      rw [hgap, List.nil_append, List.flatMap_cons, text] at hc
      cases htoken : next.token with
      | opening => simpa [htoken] using hc
      | closing => simpa [htoken] using hc
      | word w =>
        rw [htoken] at hnext
        exact hnext.elim

/-! ## Every text is laid out -/

/-- The layout with a token put in front of it. -/
def Layout.push (l : Layout) (t : Token) (ht : t.IsProper)
    (h : t.IsParenthesis ∨ ∀ next ∈ l.slots.head?, l.lead ≠ [] ∨ next.token.IsParenthesis) :
    Layout where
  lead := []
  slots := ⟨t, l.lead, ht, l.isWhite⟩ :: l.slots
  isWhite := by simp
  apart := by
    refine List.isChain_cons.2 ⟨fun next hnext => ?_, l.apart⟩
    rcases h with hpar | h
    · exact .inr (.inl hpar)
    · exact (h next hnext).imp_right .inr

theorem Layout.text_push (l : Layout) {t : Token} {ht h} :
    (l.push t ht h).text = t.chars ++ l.text := by
  simp [push, text, Slot.text]

/-- A plain character goes to the word that it touches, or is a word of its own. -/
theorem Layout.exists_text_eq_cons (l : Layout) (hc : isPlain c) :
    ∃ l' : Layout, l'.text = c :: l.text := by
  by_cases h : ∀ next ∈ l.slots.head?, l.lead ≠ [] ∨ next.token.IsParenthesis
  · have hproper : (Token.word (String.ofList [c])).IsProper := by
      simp [IsProper, IsWord, hc]
    exact ⟨l.push _ hproper (.inr h), by rw [text_push, chars_word, String.toList_ofList]; rfl⟩
  · -- The first slot holds a word, and nothing stands between it and the character.
    obtain ⟨lead, slots, hwhite, hapart⟩ := l
    simp only [not_forall, not_or, not_not] at h
    obtain ⟨⟨token, gap, hproper, hgap⟩, hslots, rfl, hword⟩ := h
    obtain ⟨slots, rfl⟩ := List.head?_eq_some_iff.1 hslots
    cases token with
    | opening => exact absurd trivial hword
    | closing => exact absurd trivial hword
    | word w =>
      have hlonger : (Token.word (String.ofList (c :: w.toList))).IsProper := by
        rw [IsProper, String.toList_ofList]
        exact ⟨List.cons_ne_nil _ _, List.forall_mem_cons.2 ⟨hc, hproper.2⟩⟩
      have hapart' := List.isChain_cons.1 hapart
      exact ⟨⟨[], ⟨_, gap, hlonger, hgap⟩ :: slots, hwhite, List.isChain_cons.2 hapart'⟩,
        by simp [text, Slot.text]⟩

theorem Layout.exists_text_eq (cs : List Char) : ∃ l : Layout, l.text = cs := by
  induction cs with
  | nil => exact ⟨⟨[], [], by simp, .nil⟩, rfl⟩
  | cons c cs ih =>
    obtain ⟨l, rfl⟩ := ih
    cases hc : isPlain c with
    | true => exact l.exists_text_eq_cons hc
    | false =>
      rcases isPlain_eq_false_iff.1 hc with hwhite | ⟨t, ht, hchars⟩
      · exact ⟨⟨c :: l.lead, l.slots, List.forall_mem_cons.2 ⟨hwhite, l.isWhite⟩, l.apart⟩, rfl⟩
      · exact ⟨l.push t ht.isProper (.inl ht), by rw [text_push, hchars]; rfl⟩

/-! ## Taking a text apart -/

/-- A function that takes a text apart from the left: nothing for white space, and a token for a
parenthesis and for a word up to its end. -/
structure Scans (f : List Char → List Token) : Prop where
  nil : f [] = []
  white {c : Char} (h : Text.isWhite c) (cs : List Char) : f (c :: cs) = f cs
  opening (cs : List Char) : f ('(' :: cs) = .opening :: f cs
  closing (cs : List Char) : f (')' :: cs) = .closing :: f cs
  word {w cs : List Char} (h : IsWord w) (hcs : ∀ c ∈ cs.head?, isPlain c = false) :
    f (w ++ cs) = .word (String.ofList w) :: f cs

theorem scans_scan : Scans scan where
  nil := rfl
  white := scan_white
  opening := scan_opening
  closing := scan_closing
  word := scan_word_append

variable {f g : List Char → List Token}

theorem Scans.gap (hf : Scans f) {white : List Char} (h : ∀ c ∈ white, Text.isWhite c)
    (cs : List Char) : f (white ++ cs) = f cs := by
  induction white with
  | nil => rfl
  | cons c white ih =>
    rw [List.forall_mem_cons] at h
    rw [List.cons_append, hf.white h.1, ih h.2]

theorem Scans.slot (hf : Scans f) (s : Slot) {cs : List Char}
    (hcs : ¬ s.token.IsParenthesis → ∀ c ∈ (s.gap ++ cs).head?, isPlain c = false) :
    f (s.text ++ cs) = s.token :: f cs := by
  have hproper := s.isProper
  rw [Slot.text, List.append_assoc, ← hf.gap s.isWhite cs]
  cases htoken : s.token with
  | opening => exact hf.opening _
  | closing => exact hf.closing _
  | word w =>
    rw [htoken] at hproper hcs
    rw [chars_word, hf.word hproper (hcs id), String.ofList_toList]

theorem Scans.slots (hf : Scans f) {slots : List Slot} (h : slots.IsChain Slot.Apart) :
    f (slots.flatMap Slot.text) = slots.map Slot.token := by
  induction slots with
  | nil => exact hf.nil
  | cons s slots ih =>
    rw [List.flatMap_cons, List.map_cons, ← ih h.tail]
    exact hf.slot s (s.not_isPlain_behind h)

theorem Scans.text (hf : Scans f) (l : Layout) : f l.text = l.tokens := by
  rw [Layout.text, hf.gap l.isWhite, hf.slots l.apart, Layout.tokens]

/-- There is only one way to take a text apart. -/
theorem Scans.unique (hf : Scans f) (hg : Scans g) : f = g := by
  funext cs
  obtain ⟨l, rfl⟩ := Layout.exists_text_eq cs
  rw [hf.text, hg.text]

theorem exists_layout (cs : List Char) : ∃ l : Layout, l.text = cs ∧ l.tokens = scan cs := by
  obtain ⟨l, rfl⟩ := Layout.exists_text_eq cs
  exact ⟨l, rfl, (scans_scan.text l).symm⟩

theorem isProper_of_mem_scan {t : Token} {cs : List Char} (h : t ∈ scan cs) : t.IsProper := by
  obtain ⟨l, -, htokens⟩ := exists_layout cs
  rw [← htokens, Layout.tokens] at h
  obtain ⟨s, -, rfl⟩ := List.mem_map.1 h
  exact s.isProper

end

end Token

end ArithTree
