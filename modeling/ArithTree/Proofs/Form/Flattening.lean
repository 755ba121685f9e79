import ArithTree.Proofs.Form.Fault
import Mathlib.Logic.Basic

/-!
# Flattening forms

A form lies flat in its pieces: its parentheses and atoms in the order of their tokens. Reading
undoes the flattening. When the reader has gone through the pieces of a form, the form is the last
item of the innermost list, unless the lists are nested too deep (`readOpen_pieces`). In the other
direction, the pieces of the open lists go on with the tokens that the reader uses, up to the whole
form that it returns (`completes_of_readOpen`). So a form is read from the tokens that have its
pieces and from no others (`read_eq_ok_iff`), whatever comes after them.
-/

namespace ArithTree

/-- A token as it stands in a form, with the atom of a word for the word. -/
inductive Piece where
  | opening
  | closing
  | atom (value : Atom)
  deriving DecidableEq, Repr

def Token.piece : Token → Piece
  | .opening => .opening
  | .closing => .closing
  | .word w => .atom (.ofText w)

section
variable {t : Token}

@[simp] theorem Token.piece_eq_opening : t.piece = .opening ↔ t = .opening := by
  cases t <;> simp [piece]

@[simp] theorem Token.piece_eq_closing : t.piece = .closing ↔ t = .closing := by
  cases t <;> simp [piece]

@[simp] theorem Token.piece_eq_atom {a : Atom} :
    t.piece = .atom a ↔ ∃ w, t = .word w ∧ Atom.ofText w = a := by
  cases t <;> simp [piece]

end

namespace Form

mutual

/-- The parentheses and atoms of a form in order. -/
def pieces : Form → List Piece
  | .atom a => [.atom a]
  | .list items => .opening :: (piecesOfItems items ++ [.closing])

/-- The pieces of forms one after another. -/
def piecesOfItems : List Form → List Piece
  | [] => []
  | item :: rest => item.pieces ++ piecesOfItems rest

end

theorem piecesOfItems_append (fs gs : List Form) :
    piecesOfItems (fs ++ gs) = piecesOfItems fs ++ piecesOfItems gs := by
  induction fs with
  | nil => simp [piecesOfItems]
  | cons f fs ih => simp [piecesOfItems, ih]

/-- The pieces of open lists, the innermost list first and its items in reverse. -/
def unclosed : List (List Form) → List Piece
  | [] => []
  | items :: outer => unclosed outer ++ .opening :: piecesOfItems items.reverse

section
variable (items next : List Form) (outer : List (List Form))

theorem unclosed_opening : unclosed ([] :: items :: outer) =
    unclosed (items :: outer) ++ [.opening] := by
  simp [unclosed, piecesOfItems]

theorem unclosed_item (f : Form) : unclosed ((f :: items) :: outer) =
    unclosed (items :: outer) ++ f.pieces := by
  simp [unclosed, piecesOfItems, piecesOfItems_append]

theorem unclosed_closing : unclosed ((list items.reverse :: next) :: outer) =
    unclosed (items :: next :: outer) ++ [.closing] := by
  rw [unclosed_item]
  simp [unclosed, pieces]

end

/-! ## The tokens of pieces -/

section
variable {ts : List Token}

theorem map_piece_eq_atom {a : Atom} (h : ts.map Token.piece = pieces (.atom a)) :
    ∃ w, ts = [.word w] ∧ Atom.ofText w = a := by
  obtain ⟨t, rfl, ht⟩ := List.map_eq_singleton_iff.1 h
  obtain ⟨w, rfl, hw⟩ := Token.piece_eq_atom.1 ht
  exact ⟨w, rfl, hw⟩

theorem map_piece_eq_list {items : List Form} (h : ts.map Token.piece = pieces (.list items)) :
    ∃ inner, ts = .opening :: (inner ++ [.closing]) ∧
      inner.map Token.piece = piecesOfItems items := by
  obtain ⟨first, ts, rfl, hfirst, hts⟩ := List.map_eq_cons_iff.1 h
  obtain ⟨inner, lasts, rfl, hinner, hlasts⟩ := List.map_eq_append_iff.1 hts
  obtain ⟨last, rfl, hlast⟩ := List.map_eq_singleton_iff.1 hlasts
  exact ⟨inner, by rw [Token.piece_eq_opening.1 hfirst, Token.piece_eq_closing.1 hlast], hinner⟩

end

/-! ## Reading on from the pieces of a form -/

mutual

theorem readOpen_pieces (f : Form) (items : List Form) (outer : List (List Form)) (used : Nat)
    {ts : List Token} (h : ts.map Token.piece = f.pieces) (hlen : outer.length < maxDepth)
    (rest : List Token) :
    readOpen items outer used (ts ++ rest) =
      if f.height + outer.length < maxDepth then
        readOpen (f :: items) outer (used + ts.length) rest
      else .error .tooDeep := by
  cases f with
  | atom a =>
    obtain ⟨w, rfl, rfl⟩ := map_piece_eq_atom h
    rw [height_atom, Nat.zero_add, if_pos hlen]
    rfl
  | list fs =>
    -- Between the parentheses the items are read with one more list open.
    obtain ⟨inner, rfl, hinner⟩ := map_piece_eq_list h
    have hheight : (list fs).height + outer.length =
        heightOfItems fs + (items :: outer).length := by
      rw [height, List.length_cons]
      omega
    rw [List.cons_append, readOpen, List.append_assoc, hheight]
    split
    · rename_i hroom
      rw [readOpen_piecesOfItems fs [] (items :: outer) (used + 1) hinner hroom]
      simp [readOpen, Nat.add_assoc, Nat.add_comm 1]
    · rename_i hfull
      rw [if_neg (by rw [List.length_cons]; omega)]

theorem readOpen_piecesOfItems (fs items : List Form) (outer : List (List Form)) (used : Nat)
    {ts : List Token} (h : ts.map Token.piece = piecesOfItems fs) (hlen : outer.length < maxDepth)
    (rest : List Token) :
    readOpen items outer used (ts ++ rest) =
      if heightOfItems fs + outer.length < maxDepth then
        readOpen (fs.reverse ++ items) outer (used + ts.length) rest
      else .error .tooDeep := by
  cases fs with
  | nil =>
    obtain rfl : ts = [] := by simpa [piecesOfItems] using h
    simp [heightOfItems, hlen]
  | cons f fs =>
    rw [piecesOfItems, List.map_eq_append_iff] at h
    obtain ⟨ts, ts', rfl, hf, hfs⟩ := h
    have hheight : heightOfItems (f :: fs) + outer.length < maxDepth ↔
        f.height + outer.length < maxDepth ∧ heightOfItems fs + outer.length < maxDepth := by
      rw [heightOfItems]
      omega
    rw [List.append_assoc, readOpen_pieces f items outer used hf hlen,
      readOpen_piecesOfItems fs (f :: items) outer _ hfs hlen]
    simp only [hheight, ite_and, List.reverse_cons, List.append_assoc, List.singleton_append,
      List.length_append, Nat.add_assoc]

end

theorem read_pieces (f : Form) {ts : List Token} (h : ts.map Token.piece = f.pieces)
    (rest : List Token) :
    read (ts ++ rest) = if f.height ≤ maxDepth then .ok ⟨f, ts.length⟩ else .error .tooDeep := by
  cases f with
  | atom a =>
    obtain ⟨w, rfl, rfl⟩ := map_piece_eq_atom h
    rfl
  | list fs =>
    obtain ⟨inner, rfl, hinner⟩ := map_piece_eq_list h
    have hread := readOpen_piecesOfItems fs [] [] 1 hinner (by decide) (.closing :: rest)
    have hclose : readOpen (fs.reverse ++ []) [] (1 + inner.length) (.closing :: rest) =
        .ok ⟨.list fs, 1 + inner.length + 1⟩ := by
      rw [readOpen, List.append_nil, List.reverse_reverse]
    have hlength : 1 + inner.length + 1 = (Token.opening :: (inner ++ [.closing])).length := by
      rw [List.length_cons, List.length_append, List.length_singleton]
      omega
    rw [List.cons_append, read, List.append_assoc, List.singleton_append, hread, hclose, hlength]
    rfl

/-! ## The tokens that the reader uses -/

/-- After `used` tokens with the pieces `before`, the next tokens have the other pieces of the form
that is read. -/
def Completes (before : List Piece) (used : Nat) (tokens : List Token) (reading : Reading) : Prop :=
  ∃ ts rest, tokens = ts ++ rest ∧ reading.used = used + ts.length ∧
    before ++ ts.map Token.piece = reading.form.pieces

section
variable {tokens : List Token} {reading : Reading}

theorem Completes.cons {before : List Piece} {used : Nat} {t : Token}
    (h : Completes (before ++ [t.piece]) (used + 1) tokens reading) :
    Completes before used (t :: tokens) reading := by
  obtain ⟨ts, rest, rfl, hused, hpieces⟩ := h
  refine ⟨t :: ts, rest, rfl, ?_, ?_⟩
  · rw [hused, List.length_cons, Nat.add_assoc, Nat.add_comm 1]
  · rw [← hpieces, List.append_assoc, List.map_cons, List.singleton_append]

theorem completes_of_readOpen {items : List Form} {outer : List (List Form)} {used : Nat}
    (h : readOpen items outer used tokens = .ok reading) :
    Completes (unclosed (items :: outer)) used tokens reading := by
  -- Whatever a token opens, closes or adds, the pieces of the open lists grow by its own.
  induction tokens generalizing items outer used with
  | nil => cases h
  | cons t tokens ih =>
    cases t with
    | opening =>
      rw [readOpen] at h
      split at h
      · exact .cons (unclosed_opening items outer ▸ ih h)
      · cases h
    | closing =>
      cases outer with
      | nil =>
        cases h
        exact ⟨[.closing], tokens, rfl, rfl, by simp [pieces, unclosed, Token.piece]⟩
      | cons next outer => exact .cons (unclosed_closing items next outer ▸ ih h)
    | word w => exact .cons (unclosed_item items outer (.atom (.ofText w)) ▸ ih h)

theorem completes_of_read (h : read tokens = .ok reading) : Completes [] 0 tokens reading := by
  cases tokens with
  | nil => cases h
  | cons t tokens =>
    cases t with
    | opening => exact .cons (completes_of_readOpen h)
    | closing => cases h
    | word w =>
      cases h
      exact ⟨[.word w], tokens, rfl, rfl, rfl⟩

/-- A form is read from the tokens that have its pieces, unless it is nested too deep. -/
theorem read_eq_ok_iff : read tokens = .ok reading ↔ reading.form.height ≤ maxDepth ∧
    ∃ ts rest, tokens = ts ++ rest ∧ reading.used = ts.length ∧
      ts.map Token.piece = reading.form.pieces := by
  constructor
  · intro h
    obtain ⟨ts, rest, rfl, hused, hpieces⟩ := completes_of_read h
    rw [List.nil_append] at hpieces
    rw [Nat.zero_add] at hused
    rw [read_pieces _ hpieces] at h
    split at h
    · rename_i hheight
      exact ⟨hheight, ts, rest, rfl, hused, hpieces⟩
    · cases h
  · rintro ⟨hheight, ts, rest, rfl, hused, hpieces⟩
    rw [read_pieces _ hpieces, if_pos hheight, ← hused]

/-- Tokens behind a form are not looked at. -/
theorem read_take_append (h : read tokens = .ok reading) (more : List Token) :
    read (tokens.take reading.used ++ more) = .ok reading := by
  obtain ⟨hheight, used, rest, rfl, hused, hpieces⟩ := read_eq_ok_iff.1 h
  rw [hused, List.take_left]
  exact read_eq_ok_iff.2 ⟨hheight, used, more, rfl, hused, hpieces⟩

theorem pieces_of_read (h : read tokens = .ok reading) :
    reading.form.pieces = (tokens.take reading.used).map Token.piece := by
  obtain ⟨-, used, rest, rfl, hused, hpieces⟩ := read_eq_ok_iff.1 h
  rw [hused, List.take_left, hpieces]

end

end Form

end ArithTree
