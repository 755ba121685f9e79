import ArithTree.Proofs.Form.Layout
import ArithTree.Proofs.Form.RoundTrip

/-!
# Displayed forms

A form is displayed with its parentheses and the texts of its atoms, so a scan of the display finds
the pieces of the form again if these texts are words (`Form.scan_text_append`). They are: an integer
is displayed as it is written, and a symbol is the word it was read from, which is read as a symbol
once more (`Form.isReadable_of_read`). Only a real may be displayed as another number or another kind
of atom. Hence a form without reals that was read is read back from its display
(`Form.read_display`).
-/

namespace ArithTree

open Token (isPlain IsWord scan ofSource)

/-- The token that displays a piece. -/
def Piece.token : Piece → Token
  | .opening => .opening
  | .closing => .closing
  | .atom a => .word (String.ofList a.text)

/-- The text of the atom is a word that reads as the atom. -/
def Atom.IsReadable (a : Atom) : Prop := IsWord a.text ∧ ofText (String.ofList a.text) = a

namespace Form

/-- Every atom of the form reads as it is displayed. -/
def IsReadable (f : Form) : Prop := ∀ a, .atom a ∈ f.pieces → a.IsReadable

/-- No atom of the form, at any depth, is a real. -/
def RealFree (f : Form) : Prop := ∀ r, .atom (.real r) ∉ f.pieces

/-! ## The tokens of a display -/

mutual

theorem scan_text_append (f : Form) (h : f.IsReadable) {cs : List Char}
    (hcs : ∀ c ∈ cs.head?, isPlain c = false) :
    scan (f.text ++ cs) = f.pieces.map Piece.token ++ scan cs := by
  cases f with
  | atom a =>
    have hword : IsWord a.text := (h a (List.mem_singleton_self _)).1
    exact Token.scan_word_append hword hcs
  | list items =>
    have hitems : ∀ a, .atom a ∈ piecesOfItems items → a.IsReadable := fun a ha =>
      h a (List.mem_cons_of_mem _ (List.mem_append_left _ ha))
    have hclosing : ∀ c ∈ (')' :: cs).head?, isPlain c = false := by
      rintro _ ⟨⟩
      rfl
    have htext : (list items).text ++ cs = '(' :: (textOfItems items ++ ')' :: cs) := by
      rw [text, List.cons_append, List.append_assoc, List.singleton_append]
    rw [htext, Token.scan_opening, scan_textOfItems_append items hitems hclosing,
      Token.scan_closing, pieces]
    simp [Piece.token]

theorem scan_textOfItems_append (items : List Form)
    (h : ∀ a, .atom a ∈ piecesOfItems items → a.IsReadable) {cs : List Char}
    (hcs : ∀ c ∈ cs.head?, isPlain c = false) :
    scan (textOfItems items ++ cs) = (piecesOfItems items).map Piece.token ++ scan cs := by
  match items with
  | [] => rfl
  | [last] =>
    have hlast : last.IsReadable := fun a ha => h a (List.mem_append_left _ ha)
    rw [textOfItems, scan_text_append last hlast hcs, piecesOfItems, piecesOfItems, List.append_nil]
  | item :: next :: rest =>
    have hitem : item.IsReadable := fun a ha => h a (List.mem_append_left _ ha)
    have hrest : ∀ a, .atom a ∈ piecesOfItems (next :: rest) → a.IsReadable := fun a ha =>
      h a (List.mem_append_right _ ha)
    have hspace : ∀ c ∈ (' ' :: (textOfItems (next :: rest) ++ cs)).head?, isPlain c = false := by
      rintro _ ⟨⟩
      rfl
    have hpieces : piecesOfItems (item :: next :: rest) =
        item.pieces ++ piecesOfItems (next :: rest) := by
      rw [piecesOfItems]
    rw [textOfItems, List.append_assoc, List.cons_append, scan_text_append item hitem hspace,
      Token.scan_space, scan_textOfItems_append (next :: rest) hrest hcs, hpieces,
      List.map_append, List.append_assoc]

end

theorem ofSource_display {f : Form} (h : f.IsReadable) :
    ofSource f.display = f.pieces.map Piece.token := by
  have hscan : scan (f.text ++ []) = f.pieces.map Piece.token ++ scan [] :=
    scan_text_append f h (by simp)
  rw [List.append_nil] at hscan
  rw [ofSource, display, String.toList_ofList, hscan]
  exact List.append_nil _

theorem map_piece_ofSource_display {f : Form} (h : f.IsReadable) :
    (ofSource f.display).map Token.piece = f.pieces := by
  have hpiece : ∀ p ∈ f.pieces, p.token.piece = id p := by
    intro p hp
    cases p with
    | opening => rfl
    | closing => rfl
    | atom a => exact congrArg Piece.atom (h a hp).2
  rw [ofSource_display h, List.map_map]
  exact (List.map_congr_left hpiece).trans (List.map_id _)

/-! ## Forms that were read -/

/-- The atoms of a form that was read are words of the source. -/
theorem isReadable_of_read {source : String} {reading : Reading}
    (h : read (ofSource source) = .ok reading) (hreal : reading.form.RealFree) :
    reading.form.IsReadable := by
  intro a ha
  rw [pieces_of_read h] at ha
  obtain ⟨t, ht, hpiece⟩ := List.mem_map.1 ha
  obtain ⟨w, rfl, hw⟩ := Token.piece_eq_atom.1 hpiece
  have hword : IsWord w.toList := Token.isProper_of_mem_scan (List.mem_of_mem_take ht)
  cases a with
  | int v => exact ⟨Token.isWord_ofInt64 v, Atom.ofText_ofInt64 v⟩
  | real r => exact absurd (pieces_of_read h ▸ ha) (hreal r)
  | symbol name =>
    obtain rfl : w = name := Atom.eq_of_ofText_eq_symbol hw
    exact ⟨hword, by rw [Atom.text, String.ofList_toList, hw]⟩

/-- **Reading a displayed form loses nothing.** If a form without reals was read from a source, then
it is read from its display as well, with as many tokens, and these are all the tokens of the
display. -/
theorem read_display {source : String} {reading : Reading}
    (h : read (ofSource source) = .ok reading) (hreal : reading.form.RealFree) :
    read (ofSource reading.form.display) = .ok reading ∧
      (ofSource reading.form.display).length = reading.used := by
  have hpieces := map_piece_ofSource_display (isReadable_of_read h hreal)
  obtain ⟨hheight, ts, rest, -, hused, hts⟩ := read_eq_ok_iff.1 h
  have hlength : (ofSource reading.form.display).length = reading.used := by
    rw [hused, ← List.length_map (f := Token.piece), hpieces, ← hts, List.length_map]
  have hread := read_eq_ok_iff.2 ⟨hheight, ofSource reading.form.display, [],
    (List.append_nil _).symm, hlength.symm, hpieces⟩
  exact ⟨hread, hlength⟩

/-- A number with a sign and zeros in front, a list without items, and a symbol with two points. -/
theorem read_display_nested :
    let form := Form.list [.atom (.int 7), .list [], .list [.atom (.symbol "1.2.3")]]
    read (ofSource "( +007()(1.2.3 ))x") = .ok ⟨form, 8⟩ ∧ form.RealFree ∧
      read (ofSource form.display) = .ok ⟨form, 8⟩ := by
  intro form
  have hread : read (ofSource "( +007()(1.2.3 ))x") = .ok ⟨form, 8⟩ := by
    have htokens : ofSource "( +007()(1.2.3 ))x" = [.opening, .word "+007", .opening, .closing,
        .opening, .word "1.2.3", .closing, .closing, .word "x"] := by decide
    rw [htokens]
    rfl
  have hreal : form.RealFree := by
    intro r
    simp [form, pieces, piecesOfItems]
  exact ⟨hread, hreal, (read_display hread hreal).1⟩

end Form

end ArithTree
