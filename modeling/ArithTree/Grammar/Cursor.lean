/-!
# Cursors

A cursor stands in a text: it holds the characters that are left and their number, so places can
be compared without a look at the characters. The number is determined by the characters
(`ext_rest`), and whatever moves a cursor is described by what it leaves.
-/

namespace ArithTree

/-- The part of a text that is left. -/
structure Cursor where
  rest : List Char
  left : Nat
  left_eq : left = rest.length

namespace Cursor

def start (cs : List Char) : Cursor := ⟨cs, cs.length, rfl⟩

/-- The cursor after `n` more characters. -/
def advance (c : Cursor) (n : Nat) : Cursor :=
  ⟨c.rest.drop n, c.left - n, by simp [c.left_eq]⟩

/-- The characters ahead that satisfy `p`, up to the first that does not. -/
def run (p : Char → Bool) (c : Cursor) : List Char := c.rest.takeWhile p

/-- The cursor after such a run. -/
def skip (p : Char → Bool) (c : Cursor) : Cursor := c.advance (c.run p).length

@[ext] theorem ext_rest {a b : Cursor} (h : a.rest = b.rest) : a = b := by
  obtain ⟨_, _, rfl⟩ := a
  obtain ⟨_, _, rfl⟩ := b
  cases h
  rfl

@[simp] theorem rest_start (cs : List Char) : (start cs).rest = cs := rfl

@[simp] theorem start_rest (c : Cursor) : start c.rest = c := ext_rest rfl

@[simp] theorem rest_advance (c : Cursor) (n : Nat) : (c.advance n).rest = c.rest.drop n := rfl

@[simp] theorem rest_skip (p : Char → Bool) (c : Cursor) :
    (c.skip p).rest = c.rest.dropWhile p := by
  simp only [skip, run, rest_advance]
  conv => lhs; arg 2; rw [← List.takeWhile_append_dropWhile (p := p) (l := c.rest)]
  exact List.drop_left

end Cursor

end ArithTree
