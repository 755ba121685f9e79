import ArithTree.Proofs.Form.Flattening
import Mathlib.Order.Nat

/-!
# The balance of parentheses

What the reader makes of tokens that open a list is decided by their balance, the number of opening
parentheses less that of closing ones among the first tokens. The reader has one list open for every
parenthesis of the balance; every token keeps this (`exists_readOpen_cons`), and so does every run of
tokens that neither closes the first list nor opens one too many (`exists_readOpen`). So the first
place where the balance is zero ends the form, unless it exceeds `maxDepth` before, and without
either place the tokens end too early (`read_eq_of_balance`).
-/

namespace ArithTree

namespace Token

variable {ts : List Token} {i : Nat}

/-- The opening parentheses less the closing ones among the first `i` tokens. -/
def balance (ts : List Token) (i : Nat) : Int :=
  (ts.take i).count .opening - (ts.take i).count .closing

/-- What a token adds to the balance. -/
def weight : Token → Int
  | .opening => 1
  | .closing => -1
  | .word _ => 0

theorem balance_succ (h : i < ts.length) : balance ts (i + 1) = balance ts i + ts[i].weight := by
  rw [balance, balance, List.take_succ_eq_append_getElem h, List.count_append, List.count_append]
  cases ts[i] <;> simp [weight] <;> omega

theorem balance_one (h : ts.head? = some .opening) : balance ts 1 = 1 := by
  obtain ⟨rest, rfl⟩ := List.head?_eq_some_iff.1 h
  simp [balance]

/-- The balance looks at the first tokens only. -/
theorem balance_take_append {j : Nat} (h : i ≤ j) (hj : j ≤ ts.length) (more : List Token) :
    balance (ts.take j ++ more) i = balance ts i := by
  have htake : (ts.take j ++ more).take i = ts.take i := by
    rw [List.take_append_of_le_length (by simp; omega), List.take_take, Nat.min_eq_left h]
  rw [balance, htake, balance]

/-- The first place where all lists are closed again. -/
def ClosesAt (ts : List Token) (k : Nat) : Prop :=
  IsLeast {k | 1 ≤ k ∧ k ≤ ts.length ∧ balance ts k = 0} k

/-- The first place where one list more than `maxDepth` is open. -/
def OverflowsAt (ts : List Token) (j : Nat) : Prop :=
  IsLeast {j | j ≤ ts.length ∧ balance ts j = maxDepth + 1} j

/-- None of the first `i` tokens closes the first list or opens one list too many. -/
def Undecided (ts : List Token) (i : Nat) : Prop :=
  i ≤ ts.length ∧ ∀ m, 1 ≤ m → m ≤ i → balance ts m ≠ 0 ∧ balance ts m ≠ maxDepth + 1

theorem Undecided.take_append {j : Nat} (h : Undecided ts i) (hij : i ≤ j) (hj : j ≤ ts.length)
    (more : List Token) : Undecided (ts.take j ++ more) i := by
  refine ⟨?_, fun m hm hmi => ?_⟩
  · rw [List.length_append, List.length_take]
    omega
  · rw [balance_take_append (by omega) hj]
    exact h.2 m hm hmi

end Token

namespace Form

open Token

variable {ts : List Token} {i j k : Nat}

/-! ## Open lists -/

/-- A token that leaves some lists open, and not too many, is read. -/
theorem exists_readOpen_cons (t : Token) (items : List Form) {outer : List (List Form)}
    (hlen : outer.length < maxDepth) (hopen : (outer.length + 1 : Int) + t.weight ≠ 0)
    (hroom : (outer.length + 1 : Int) + t.weight ≠ maxDepth + 1) :
    ∃ items' outer', outer'.length < maxDepth ∧
      (outer'.length + 1 : Int) = (outer.length + 1 : Int) + t.weight ∧
      ∀ used rest, readOpen items outer used (t :: rest) = readOpen items' outer' (used + 1) rest := by
  cases t with
  | opening =>
    simp only [weight] at hroom ⊢
    have hlen' : outer.length + 1 < maxDepth := by omega
    refine ⟨[], items :: outer, hlen', by simp, fun used rest => ?_⟩
    rw [readOpen, if_pos hlen']
  | closing =>
    cases outer with
    | nil => exact absurd rfl hopen
    | cons next outer =>
      rw [List.length_cons] at hlen
      refine ⟨.list items.reverse :: next, outer, by omega, ?_, fun used rest => rfl⟩
      rw [List.length_cons, weight]
      omega
  | word w => exact ⟨_, outer, hlen, by simp [weight], fun used rest => rfl⟩

/-- As long as nothing is decided, there are as many lists open as the balance says. -/
theorem exists_readOpen (hhead : ts.head? = some .opening) (hi : 1 ≤ i) (h : Undecided ts i) :
    ∃ items outer, outer.length < maxDepth ∧ (outer.length + 1 : Int) = balance ts i ∧
      read ts = readOpen items outer i (ts.drop i) := by
  obtain ⟨hle, hund⟩ := h
  induction i, hi using Nat.le_induction with
  | base =>
    obtain ⟨rest, rfl⟩ := List.head?_eq_some_iff.1 hhead
    exact ⟨[], [], by decide, by simp [balance_one hhead], rfl⟩
  | succ i hi ih =>
    obtain ⟨items, outer, hlen, hbal, hread⟩ :=
      ih (by omega) fun m hm hmi => hund m hm (by omega)
    have hlt : i < ts.length := hle
    have hnext := hund (i + 1) (by omega) (Nat.le_refl _)
    rw [balance_succ hlt, ← hbal] at hnext
    obtain ⟨items', outer', hlen', hbal', hcons⟩ :=
      exists_readOpen_cons ts[i] items hlen hnext.1 hnext.2
    refine ⟨items', outer', hlen', by rw [balance_succ hlt, ← hbal, hbal'], ?_⟩
    rw [hread, List.drop_eq_getElem_cons hlt, hcons]

/-! ## What the balance decides -/

theorem read_of_undecided (hhead : ts.head? = some .opening) (h : Undecided ts ts.length) :
    read ts = .error .unexpectedEnd := by
  have hpos : 1 ≤ ts.length := by
    obtain ⟨rest, rfl⟩ := List.head?_eq_some_iff.1 hhead
    simp
  obtain ⟨items, outer, -, -, hread⟩ := exists_readOpen hhead hpos h
  rw [hread, List.drop_length, readOpen]

theorem read_of_balance_eq_zero (hhead : ts.head? = some .opening) (hi : 1 ≤ i)
    (h : Undecided ts i) (hlt : i < ts.length) (hzero : balance ts (i + 1) = 0) :
    ∃ items, read ts = .ok ⟨.list items, i + 1⟩ := by
  obtain ⟨items, outer, -, hbal, hread⟩ := exists_readOpen hhead hi h
  rw [balance_succ hlt, ← hbal] at hzero
  rw [hread, List.drop_eq_getElem_cons hlt]
  -- only a closing parenthesis lowers the balance, and here it closes the only list
  cases ht : ts[i] with
  | opening => simp only [ht, weight] at hzero; omega
  | word w => simp only [ht, weight] at hzero; omega
  | closing =>
    simp only [ht, weight] at hzero
    obtain rfl : outer = [] := List.length_eq_zero_iff.1 (by omega)
    exact ⟨items.reverse, rfl⟩

theorem read_of_balance_eq_succ (hhead : ts.head? = some .opening) (hi : 1 ≤ i)
    (h : Undecided ts i) (hlt : i < ts.length) (hmax : balance ts (i + 1) = maxDepth + 1) :
    read ts = .error .tooDeep := by
  obtain ⟨items, outer, hlen, hbal, hread⟩ := exists_readOpen hhead hi h
  rw [balance_succ hlt, ← hbal] at hmax
  rw [hread, List.drop_eq_getElem_cons hlt]
  cases ht : ts[i] with
  | closing => simp only [ht, weight] at hmax; omega
  | word w => simp only [ht, weight] at hmax; omega
  | opening =>
    simp only [ht, weight] at hmax
    rw [readOpen, if_neg (by omega)]

/-! ## The first place -/

/-- Nothing is decided before the first place where something is. -/
theorem undecided_of_lt {n : Nat} (hn : n ≤ ts.length) (hk : ∀ k, ClosesAt ts k → n < k)
    (hj : ∀ j, OverflowsAt ts j → n < j) : Undecided ts n := by
  classical
  refine ⟨hn, fun m hm hmn => ⟨fun hzero => ?_, fun hmax => ?_⟩⟩
  · have hex : ∃ k, 1 ≤ k ∧ k ≤ ts.length ∧ balance ts k = 0 := ⟨m, hm, by omega, hzero⟩
    have hlt : n < Nat.find hex := hk _ (Nat.isLeast_find hex)
    have hle : Nat.find hex ≤ m := Nat.find_min' hex ⟨hm, by omega, hzero⟩
    omega
  · have hex : ∃ j, j ≤ ts.length ∧ balance ts j = maxDepth + 1 := ⟨m, by omega, hmax⟩
    have hlt : n < Nat.find hex := hj _ (Nat.isLeast_find hex)
    have hle : Nat.find hex ≤ m := Nat.find_min' hex ⟨by omega, hmax⟩
    omega

/-- The first token, which opens a list, decides nothing. -/
theorem exists_eq_succ (hhead : ts.head? = some .opening) (hpos : 1 ≤ i) (hbal : balance ts i ≠ 1) :
    ∃ m, i = m + 1 ∧ 1 ≤ m := by
  have hone : i ≠ 1 := by
    rintro rfl
    exact hbal (balance_one hhead)
  exact ⟨i - 1, by omega⟩

theorem read_of_closesAt (hhead : ts.head? = some .opening) (h : ClosesAt ts k)
    (hj : ∀ j, OverflowsAt ts j → k < j) : ∃ items, read ts = .ok ⟨.list items, k⟩ := by
  obtain ⟨hpos, hle, hzero⟩ := h.1
  obtain ⟨i, rfl, hi⟩ := exists_eq_succ hhead hpos (by rw [hzero]; decide)
  have hund : Undecided ts i :=
    undecided_of_lt (by omega) (fun _ hk => h.2 hk.1) fun j hj' => Nat.lt_of_succ_lt (hj j hj')
  exact read_of_balance_eq_zero hhead hi hund hle hzero

/-- Whatever comes behind the place is not looked at. -/
theorem read_of_overflowsAt (hhead : ts.head? = some .opening) (h : OverflowsAt ts j)
    (hk : ∀ k, ClosesAt ts k → j < k) (more : List Token) :
    read (ts.take j ++ more) = .error .tooDeep := by
  obtain ⟨hle, hmax⟩ := h.1
  have hpos : 1 ≤ j := by
    refine Nat.pos_of_ne_zero ?_
    rintro rfl
    cases hmax
  obtain ⟨i, rfl, hi⟩ := exists_eq_succ hhead hpos (by rw [hmax]; decide)
  have hund : Undecided ts i :=
    undecided_of_lt (by omega) (fun k hk' => Nat.lt_of_succ_lt (hk k hk')) fun _ hj => h.2 hj.1
  have hhead' : (ts.take (i + 1) ++ more).head? = some .opening := by
    obtain ⟨rest, rfl⟩ := List.head?_eq_some_iff.1 hhead
    rfl
  refine read_of_balance_eq_succ hhead' hi (hund.take_append i.le_succ hle more) ?_ ?_
  · rw [List.length_append, List.length_take]
    omega
  · rw [balance_take_append (Nat.le_refl _) hle, hmax]

/-- **The balance decides.** No tokens are too few, and a closing parenthesis or a word is decided by
itself. Behind an opening parenthesis, the first place where one list too many is open makes the form
too deep if it comes before the first place where all lists are closed. Otherwise that place ends a
list with the pieces of the tokens up to there, and if there is none the tokens end too early. What
stands behind the place is never looked at. -/
theorem read_eq_of_balance (ts : List Token) :
    (ts = [] → read ts = .error .unexpectedEnd) ∧
    (ts.head? = some .closing → read ts = .error .unexpectedClose) ∧
    (∀ w, ts.head? = some (.word w) → read ts = .ok ⟨.atom (.ofText w), 1⟩) ∧
    (ts.head? = some .opening →
      (∀ j, OverflowsAt ts j → (∀ k, ClosesAt ts k → j < k) →
        read ts = .error .tooDeep ∧ ∀ more, read (ts.take j ++ more) = .error .tooDeep) ∧
      (∀ k, ClosesAt ts k → (∀ j, OverflowsAt ts j → k < j) →
        ∃ items, read ts = .ok ⟨.list items, k⟩ ∧
          (Form.list items).pieces = (ts.take k).map Token.piece) ∧
      ((∀ k, ¬ ClosesAt ts k) → (∀ j, ¬ OverflowsAt ts j) → read ts = .error .unexpectedEnd)) ∧
    ∀ reading more, read ts = .ok reading → read (ts.take reading.used ++ more) = .ok reading := by
  refine ⟨?_, fun h => ?_, fun w h => ?_, fun hhead => ⟨fun j hj hk => ?_, fun k hk hj => ?_, ?_⟩, ?_⟩
  · rintro rfl
    rfl
  · obtain ⟨rest, rfl⟩ := List.head?_eq_some_iff.1 h
    rfl
  · obtain ⟨rest, rfl⟩ := List.head?_eq_some_iff.1 h
    rfl
  · have hread := read_of_overflowsAt hhead hj hk
    exact ⟨List.take_append_drop j ts ▸ hread (ts.drop j), hread⟩
  · obtain ⟨items, hread⟩ := read_of_closesAt hhead hk hj
    exact ⟨items, hread, pieces_of_read hread⟩
  · intro hk hj
    exact read_of_undecided hhead (undecided_of_lt (Nat.le_refl _) (fun k h => absurd h (hk k))
      fun j h => absurd h (hj j))
  · exact fun reading more h => read_take_append h more

/-- One opening parenthesis too many, and a list that is closed before the tokens end. -/
theorem read_eq_of_balance_runaway :
    let runaway := List.replicate (maxDepth + 1) Token.opening
    let closed := [Token.opening, .word "x", .closing, .closing]
    (OverflowsAt runaway (maxDepth + 1) ∧ (∀ k, ¬ ClosesAt runaway k) ∧
      read runaway = .error .tooDeep) ∧
    ClosesAt closed 3 ∧ (∀ j, ¬ OverflowsAt closed j) ∧
      ∃ items, read closed = .ok ⟨.list items, 3⟩ := by
  intro runaway closed
  constructor
  · have hbal (i : Nat) : balance runaway i = min i (maxDepth + 1) := by
      simp [runaway, balance, List.count_replicate]
    have hover : OverflowsAt runaway (maxDepth + 1) :=
      ⟨⟨by simp [runaway], by simp [hbal]⟩, fun j ⟨_, hj⟩ => by rw [hbal] at hj; omega⟩
    have hclose (k : Nat) : ¬ ClosesAt runaway k := fun ⟨⟨hpos, _, hzero⟩, _⟩ => by
      rw [hbal] at hzero
      omega
    obtain ⟨overflows, -, -⟩ := (read_eq_of_balance runaway).2.2.2.1 rfl
    exact ⟨hover, hclose, (overflows _ hover fun k hk => absurd hk (hclose k)).1⟩
  · have hclose : ClosesAt closed 3 := by
      refine ⟨⟨by decide, by decide, by decide⟩, fun k ⟨hpos, _, hzero⟩ => ?_⟩
      by_contra hlt
      obtain rfl | rfl : k = 1 ∨ k = 2 := by omega
      · cases hzero
      · cases hzero
    have hover (j : Nat) : ¬ OverflowsAt closed j := fun ⟨⟨hle, hmax⟩, _⟩ => by
      have hcount : (closed.take j).count .opening ≤ 1 := (List.take_sublist j closed).count_le _
      rw [balance, maxDepth] at hmax
      omega
    obtain ⟨-, closes, -⟩ := (read_eq_of_balance closed).2.2.2.1 rfl
    obtain ⟨items, hread, -⟩ := closes 3 hclose fun j hj => absurd hj (hover j)
    exact ⟨hclose, hover, items, hread⟩

end Form

end ArithTree
