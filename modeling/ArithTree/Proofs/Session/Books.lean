import ArithTree.Proofs.Session.History
import Mathlib.Data.List.Induction

/-!
# The books of a session

Owners are counted, and each is made for one draft or one expression. `Books` writes down for which
(`makers`), and that every draft, expression and handle with this owner goes back to it: an expression
by clones only, a handle by having been issued. A step keeps the books (`Books.step`): it makes an
owner that nothing has yet, or it hands on one that is in the books.
-/

namespace ArithTree.Session

/-! ## Sources -/

/-- The sources are the same draft, or expressions joined by `C`. -/
inductive Alike (C : Nat → Nat → Prop) : Source → Source → Prop
  | draft (number : Nat) : Alike C (.draft number) (.draft number)
  | expr {x y : Nat} : Relation.EqvGen C x y → Alike C (.expr x) (.expr y)

/-- The nodes of the source have this owner. A draft that is used up has none. -/
inductive Owns (s : Session) : Source → Nat → Prop
  | draft {number : Nat} {d : Draft} :
    s.drafts[number]? = some (some d) → Owns s (.draft number) d.owner
  | expr {number : Nat} {x : OwnedExpr} : s.exprs[number]? = some x → Owns s (.expr number) x.owner

/-- The handle names a node of the source, unless this is a draft that is used up. -/
inductive Names (s : Session) (h : Handle) : Source → Prop
  | usedUp {number : Nat} : s.drafts[number]? = some none → Names s h (.draft number)
  | draft {number : Nat} {d : Draft} :
    s.drafts[number]? = some (some d) → d.owns h → Names s h (.draft number)
  | expr {number : Nat} {x : OwnedExpr} :
    s.exprs[number]? = some x → (x.node? h).isSome → Names s h (.expr number)

section
variable {C D : Nat → Nat → Prop} {a b c : Source}

theorem Alike.refl (a : Source) : Alike C a a := by
  cases a with
  | draft number => exact .draft number
  | expr number => exact .expr (.refl number)

theorem Alike.symm (h : Alike C a b) : Alike C b a := by
  cases h with
  | draft number => exact .draft number
  | expr h => exact .expr h.symm

theorem Alike.trans (h : Alike C a b) (h' : Alike C b c) : Alike C a c := by
  cases h with
  | draft number => exact h'
  | expr h =>
    cases h' with
    | expr h' => exact .expr (h.trans _ _ _ h')

theorem Alike.mono (hCD : ∀ x y, C x y → D x y) (h : Alike C a b) : Alike D a b := by
  cases h with
  | draft number => exact .draft number
  | expr h => exact .expr (h.mono hCD)

end

/-! ## The books of a session -/

/-- By `makers` the owner was made for this source, or for one like it. -/
def MadeFor (makers : Array Source) (C : Nat → Nat → Prop) (source : Source) (owner : Nat) : Prop :=
  ∃ maker, makers[owner]? = some maker ∧ Alike C source maker

/-- `I` says which handles were issued, `C` what was cloned, and `makers` for which source each owner
was made. -/
structure Books (s : Session) (I : Source → Handle → Prop) (C : Nat → Nat → Prop)
    (makers : Array Source) : Prop where
  counted : makers.size = s.owners
  owner : ∀ source o, s.Owns source o → MadeFor makers C source o
  issuer : ∀ source h, I source h → MadeFor makers C source h.owner
  names : ∀ source h, I source h → s.Names h source
  issued : ∀ h ∈ s.handles, ∃ source, I source h
  cloned : ∀ x y, C x y → ∃ e, s.exprs[x]? = some e ∧ s.exprs[y]? = some e

section
variable {I : Source → Handle → Prop} {C D : Nat → Nat → Prop} {makers : Array Source}
  {source other : Source} {o : Nat}

theorem getElem?_push_of_eq_some {α : Type} {xs : Array α} {i : Nat} {a b : α}
    (h : xs[i]? = some a) : (xs.push b)[i]? = some a := by
  have hlt : i < xs.size := (Array.getElem?_eq_some_iff.1 h).1
  rw [Array.getElem?_push, if_neg (Nat.ne_of_lt hlt), h]

theorem MadeFor.push (h : MadeFor makers C source o) : MadeFor (makers.push other) C source o := by
  obtain ⟨maker, hmaker, halike⟩ := h
  exact ⟨maker, getElem?_push_of_eq_some hmaker, halike⟩

theorem MadeFor.mono (hCD : ∀ x y, C x y → D x y) (h : MadeFor makers C source o) :
    MadeFor makers D source o := by
  obtain ⟨maker, hmaker, halike⟩ := h
  exact ⟨maker, hmaker, halike.mono hCD⟩

/-- An owner was made for one source. -/
theorem MadeFor.alike (h : MadeFor makers C source o) (h' : MadeFor makers C other o) :
    Alike C source other := by
  obtain ⟨maker, hmaker, hsource⟩ := h
  obtain ⟨maker', hmaker', hother⟩ := h'
  rw [hmaker, Option.some_inj] at hmaker'
  rw [← hmaker'] at hother
  exact hsource.trans hother.symm

theorem madeFor_last (h : makers.size = o) : MadeFor (makers.push source) C source o := by
  refine ⟨source, ?_, .refl source⟩
  rw [← h, Array.getElem?_push_size]

/-! ### Changes of the session -/

variable {s : Session} {number : Nat}

theorem books_empty : Books {} (fun _ _ => False) (fun _ _ => False) #[] where
  counted := rfl
  owner := by
    intro source o ho
    cases ho with
    | draft hd => simp at hd
    | expr hx => simp at hx
  issuer := by simp
  names := by simp
  issued := by simp
  cloned := by simp

section
variable {d : Draft} {place : Option Draft} (hd : s.drafts[number]? = some (some d))
  (hplace : ∀ d', place = some d' → d.Extends d')
include hd hplace

theorem Owns.of_setDraft
    (ho : Owns { s with drafts := s.drafts.setIfInBounds number place } source o) :
    s.Owns source o := by
  cases ho with
  | @draft n d' hn =>
    by_cases heq : n = number
    · subst heq
      rw [Array.getElem?_setIfInBounds_self_of_lt (Array.getElem?_eq_some_iff.1 hd).1,
        Option.some_inj] at hn
      rw [(hplace d' hn).1]
      exact .draft hd
    · rw [Array.getElem?_setIfInBounds_ne (Ne.symm heq)] at hn
      exact .draft hn
  | expr hx => exact .expr hx

theorem Names.setDraft {h : Handle} (hn : s.Names h source) :
    Names { s with drafts := s.drafts.setIfInBounds number place } h source := by
  cases hn with
  | @usedUp n hn =>
    have hne : number ≠ n := by
      intro heq
      rw [heq, hn] at hd
      cases hd
    exact .usedUp (by rwa [Array.getElem?_setIfInBounds_ne hne])
  | @draft n d' hn howns =>
    by_cases heq : number = n
    · subst heq
      rw [hd, Option.some_inj, Option.some_inj] at hn
      subst hn
      have hset : (s.drafts.setIfInBounds number place)[number]? = some place :=
        Array.getElem?_setIfInBounds_self_of_lt (Array.getElem?_eq_some_iff.1 hd).1
      cases place with
      | none => exact .usedUp hset
      | some d' => exact .draft hset ((hplace d' rfl).owns howns)
    · exact .draft (by rwa [Array.getElem?_setIfInBounds_ne heq]) howns
  | expr hx hnode => exact .expr hx hnode

/-- A draft goes on with more nodes, or is used up. -/
theorem Books.setDraft (hb : s.Books I C makers) :
    Books { s with drafts := s.drafts.setIfInBounds number place } I C makers where
  counted := hb.counted
  owner := fun source o ho => hb.owner source o (ho.of_setDraft hd hplace)
  issuer := hb.issuer
  names := fun source h hI => (hb.names source h hI).setDraft hd hplace
  issued := hb.issued
  cloned := hb.cloned

end

theorem Names.mono {s' : Session} {h : Handle}
    (hdrafts : ∀ (n : Nat) place, s.drafts[n]? = some place → s'.drafts[n]? = some place)
    (hexprs : ∀ (n : Nat) x, s.exprs[n]? = some x → s'.exprs[n]? = some x)
    (hn : s.Names h source) : s'.Names h source := by
  cases hn with
  | usedUp hd => exact .usedUp (hdrafts _ _ hd)
  | draft hd howns => exact .draft (hdrafts _ _ hd) howns
  | expr hx hnode => exact .expr (hexprs _ _ hx) hnode

theorem Books.newDraft (hb : s.Books I C makers) :
    Books { s with owners := s.owners + 1, drafts := s.drafts.push (some { owner := s.owners }) }
      I C (makers.push (.draft s.drafts.size)) where
  counted := by rw [Array.size_push, hb.counted]
  owner := by
    intro source o ho
    cases ho with
    | draft hd =>
      rw [Array.getElem?_push] at hd
      split at hd
      · rename_i heq
        cases hd
        rw [heq]
        exact madeFor_last hb.counted
      · exact (hb.owner _ _ (.draft hd)).push
    | expr hx => exact (hb.owner _ _ (.expr hx)).push
  issuer := fun source h hI => (hb.issuer source h hI).push
  names := by
    intro source h hI
    apply (hb.names source h hI).mono
    · exact fun _ _ => getElem?_push_of_eq_some
    · exact fun _ _ => id
  issued := hb.issued
  cloned := hb.cloned

/-- An expression with an owner of its own. -/
theorem Books.newExpr (hb : s.Books I C makers) (a : Arena) :
    Books { s with owners := s.owners + 1, exprs := s.exprs.push ⟨s.owners, a⟩ }
      I C (makers.push (.expr s.exprs.size)) where
  counted := by rw [Array.size_push, hb.counted]
  owner := by
    intro source o ho
    cases ho with
    | draft hd => exact (hb.owner _ _ (.draft hd)).push
    | expr hx =>
      rw [Array.getElem?_push] at hx
      split at hx
      · rename_i heq
        cases hx
        rw [heq]
        exact madeFor_last hb.counted
      · exact (hb.owner _ _ (.expr hx)).push
  issuer := fun source h hI => (hb.issuer source h hI).push
  names := by
    intro source h hI
    apply (hb.names source h hI).mono
    · exact fun _ _ => id
    · exact fun _ _ => getElem?_push_of_eq_some
  issued := hb.issued
  cloned := by
    intro x y hC
    obtain ⟨e, hx, hy⟩ := hb.cloned x y hC
    exact ⟨e, getElem?_push_of_eq_some hx, getElem?_push_of_eq_some hy⟩

/-- A clone has the owner of its expression. -/
theorem Books.clone {x : OwnedExpr} (hb : s.Books I C makers) (hx : s.exprs[number]? = some x) :
    Books { s with exprs := s.exprs.push x } I (fun a b => C a b ∨ a = number ∧ b = s.exprs.size)
      makers where
  counted := hb.counted
  owner := by
    intro source o ho
    cases ho with
    | draft hd => exact (hb.owner _ _ (.draft hd)).mono fun _ _ => .inl
    | @expr n y hy =>
      rw [Array.getElem?_push] at hy
      split at hy
      · rename_i heq
        cases hy
        obtain ⟨maker, hmaker, halike⟩ := hb.owner _ _ (.expr hx)
        refine ⟨maker, hmaker, .trans (.expr ?_) (halike.mono fun _ _ => .inl)⟩
        exact .symm _ _ (.rel _ _ (.inr ⟨rfl, heq⟩))
      · exact (hb.owner _ _ (.expr hy)).mono fun _ _ => .inl
  issuer := fun source h hI => (hb.issuer source h hI).mono fun _ _ => .inl
  names := by
    intro source h hI
    apply (hb.names source h hI).mono
    · exact fun _ _ => id
    · exact fun _ _ => getElem?_push_of_eq_some
  issued := hb.issued
  cloned := by
    intro a b hC
    rcases hC with hC | ⟨rfl, rfl⟩
    · obtain ⟨e, ha, hb⟩ := hb.cloned a b hC
      exact ⟨e, getElem?_push_of_eq_some ha, getElem?_push_of_eq_some hb⟩
    · exact ⟨x, getElem?_push_of_eq_some hx, Array.getElem?_push_size⟩

theorem Books.issue {h : Handle} (hb : s.Books I C makers) (howns : s.Owns source h.owner)
    (hnames : s.Names h source) :
    Books { s with handles := s.handles.push h } (fun a k => I a k ∨ a = source ∧ k = h) C
      makers where
  counted := hb.counted
  owner := by
    intro a o ho
    cases ho with
    | draft hd => exact hb.owner _ _ (.draft hd)
    | expr hx => exact hb.owner _ _ (.expr hx)
  issuer := by
    intro a k hI
    rcases hI with hI | ⟨rfl, rfl⟩
    · exact hb.issuer a k hI
    · exact hb.owner _ _ howns
  names := by
    intro a k hI
    have hn : s.Names k a := by
      rcases hI with hI | ⟨rfl, rfl⟩
      · exact hb.names a k hI
      · exact hnames
    apply hn.mono
    · exact fun _ _ => id
    · exact fun _ _ => id
  issued := by
    intro k hk
    rcases Array.mem_push.1 hk with hk | rfl
    · obtain ⟨a, ha⟩ := hb.issued k hk
      exact ⟨a, .inl ha⟩
    · exact ⟨source, .inr ⟨rfl, rfl⟩⟩
  cloned := hb.cloned

/-! ### Steps -/

/-- The books after a step, with what it gave written down. -/
def Result.Booked (r : Result) (request : Step) (I : Source → Handle → Prop)
    (C : Nat → Nat → Prop) : Prop :=
  ∃ makers, r.2.Books
    (fun source h => I source h ∨ request.source? = some source ∧ r.handle? = some h)
    (fun x y => C x y ∨ request.original? = some x ∧ r.expr? = some y) makers

variable {request : Step} {r : Result}

/-- No handle is given, or not as one of a source, and no clone is made. -/
theorem Books.quiet (hb : r.2.Books I C makers)
    (hhandle : request.source? = none ∨ r.handle? = none)
    (hexpr : request.original? = none ∨ r.expr? = none) : r.Booked request I C := by
  have hI : (fun source h => I source h ∨ request.source? = some source ∧ r.handle? = some h) = I := by
    funext source h
    rcases hhandle with hnone | hnone <;> simp [hnone]
  have hC : (fun x y => C x y ∨ request.original? = some x ∧ r.expr? = some y) = C := by
    funext x y
    rcases hexpr with hnone | hnone <;> simp [hnone]
  refine ⟨makers, ?_⟩
  rwa [hI, hC]

theorem Books.found {α : Type} {found : Except Fault α} {f : α → Result} (hb : s.Books I C makers)
    (hf : ∀ a, found = .ok a → (f a).Booked request I C) :
    (s.withFound found f).Booked request I C := by
  cases found with
  | ok a => exact hf a rfl
  | error fault => exact hb.quiet (.inr rfl) (.inr rfl)

theorem handle?_addHandle (s : Session) (h : Handle) : (s.addHandle h).handle? = some h :=
  Array.getElem?_push_size

theorem Books.addHandle {h : Handle} (hb : s.Books I C makers)
    (hsource : request.source? = some source) (howns : s.Owns source h.owner)
    (hnames : s.Names h source) : (s.addHandle h).Booked request I C := by
  refine ⟨makers, ?_⟩
  have hI : (fun a k => I a k ∨ request.source? = some a ∧ (s.addHandle h).handle? = some k) =
      fun a k => I a k ∨ a = source ∧ k = h := by
    funext a k
    simp only [handle?_addHandle, hsource, Option.some_inj, eq_comm]
  have hC : (fun x y => C x y ∨ request.original? = some x ∧ (s.addHandle h).expr? = some y) =
      C := by
    funext x y
    simp [Result.expr?, Session.addHandle]
  rw [hI, hC]
  exact hb.issue howns hnames

theorem Books.addNode {d : Draft} {asked : Draft.Request} (hb : s.Books I C makers)
    (hsource : request.source? = some (.draft number)) (hd : s.draft number = .ok d)
    (hs : d.Sound) : (s.addNode number (d.serve asked)).Booked request I C := by
  rw [draft_eq_ok] at hd
  cases hserve : d.serve asked with
  | mk answer d' =>
    cases answer with
    | error e => exact hb.quiet (.inr rfl) (.inr rfl)
    | ok h =>
      obtain ⟨-, hextends, t, ht⟩ := hs.serve_ok hserve
      have hset : (s.drafts.setIfInBounds number (some d'))[number]? = some (some d') :=
        Array.getElem?_setIfInBounds_self_of_lt (Array.getElem?_eq_some_iff.1 hd).1
      have hlonger : ∀ d'', some d' = some d'' → d.Extends d'' := by
        intro d'' heq
        cases heq
        exact hextends
      apply (hb.setDraft hd hlonger).addHandle hsource
      · rw [(Draft.owns_iff.1 ht.1).1]
        exact .draft hset
      · exact .draft hset ht.1

theorem Books.addNew {made : Except Error Arena} (hb : s.Books I C makers)
    (hsource : request.source? = none) (horiginal : request.original? = none) :
    (s.addNew made).Booked request I C := by
  cases made with
  | error e => exact hb.quiet (.inl hsource) (.inl horiginal)
  | ok a => exact Books.quiet (hb.newExpr a) (.inl hsource) (.inl horiginal)

theorem Books.useUp {d : Draft} (hb : s.Books I C makers) (hd : s.draft number = .ok d) :
    (s.useUp number).Books I C makers :=
  hb.setDraft (draft_eq_ok.1 hd) (by simp)

/-- A clone, written down as one of the expression with the number. -/
theorem Books.addExpr {x : OwnedExpr} (hb : s.Books I C makers) (hx : s.expr number = .ok x) :
    (s.addExpr x).Booked (.clone number) I C := by
  refine ⟨makers, ?_⟩
  have hI : (fun source h => I source h ∨
      (Step.clone number).source? = some source ∧ (s.addExpr x).handle? = some h) = I := by
    funext source h
    simp [Step.source?]
  have hC : (fun a b => C a b ∨
      (Step.clone number).original? = some a ∧ (s.addExpr x).expr? = some b) =
      fun a b => C a b ∨ a = number ∧ b = s.exprs.size := by
    funext a b
    simp [Step.original?, Result.expr?, Session.addExpr, eq_comm]
  rw [hI, hC]
  exact hb.clone (expr_eq_ok.1 hx)

theorem Books.step (hb : s.Books I C makers) (hs : s.Held) (request : Step) :
    (s.step request).Booked request I C := by
  cases request with
  | newDraft => exact Books.quiet hb.newDraft (.inl rfl) (.inl rfl)
  | lit d v => exact hb.found fun draft hd => hb.addNode rfl hd (hs.served hd).sound
  | branch d op l r =>
    refine hb.found fun draft hd => hb.found fun left _ => hb.found fun right _ => ?_
    exact hb.addNode rfl hd (hs.served hd).sound
  | copy d x =>
    refine hb.found fun draft hd => hb.found fun x _ => ?_
    exact hb.addNode rfl hd (hs.served hd).sound
  | extract d root =>
    exact hb.found fun draft hd => hb.found fun h _ => (hb.useUp hd).addNew rfl rfl
  | number v => exact hb.addNew rfl rfl
  | combine op l r => exact hb.found fun left _ => hb.found fun right _ => hb.addNew rfl rfl
  | read dialect source => exact hb.addNew rfl rfl
  | clone x => exact hb.found fun x hx => hb.addExpr hx
  | root x =>
    refine hb.found fun x hx => hb.addHandle rfl ?_ ?_
    · exact .expr (expr_eq_ok.1 hx)
    · exact .expr (expr_eq_ok.1 hx) (OwnedExpr.isSome_node?_root (hs.obtained hx).compact)
  | node x n => exact hb.found fun x _ => hb.found fun h _ => hb.quiet (.inl rfl) (.inl rfl)
  | operand x n position =>
    refine hb.found fun x hx => hb.found fun h _ => ?_
    split
    · rename_i operand hoperand
      obtain ⟨hnode, howner⟩ :=
        OwnedExpr.isSome_node?_operand (hs.obtained hx).compact hoperand
      apply hb.addHandle rfl
      · rw [howner]
        exact .expr (expr_eq_ok.1 hx)
      · exact .expr (expr_eq_ok.1 hx) hnode
    · exact hb.quiet (.inr rfl) (.inl rfl)
  | equal l r => exact hb.found fun left _ => hb.found fun right _ => hb.quiet (.inl rfl) (.inl rfl)
  | eval x table =>
    refine hb.found fun x _ => ?_
    split
    · exact hb.quiet (.inl rfl) (.inl rfl)
    · exact hb.quiet (.inl rfl) (.inl rfl)
  | write x writing => exact hb.found fun x _ => hb.quiet (.inl rfl) (.inl rfl)
  | walk x => exact hb.found fun x _ => hb.quiet (.inl rfl) (.inl rfl)

end

/-- The books are in order after any steps. -/
theorem books_reached (steps : List Step) :
    ∃ makers, (reached steps).Books (Issued steps) (Cloned steps) makers := by
  induction steps using List.reverseRecOn with
  | nil =>
    have hI : Issued [] = fun _ _ => False := by
      funext source h
      exact eq_false not_occurs_nil
    have hC : Cloned [] = fun _ _ => False := by
      funext x y
      exact eq_false not_occurs_nil
    rw [hI, hC]
    exact ⟨#[], books_empty⟩
  | append_singleton steps request ih =>
    obtain ⟨makers, hb⟩ := ih
    have hI : Issued (steps ++ [request]) = fun source h => Issued steps source h ∨
        request.source? = some source ∧ ((reached steps).step request).handle? = some h := by
      funext source h
      exact propext occurs_concat
    have hC : Cloned (steps ++ [request]) = fun x y => Cloned steps x y ∨
        request.original? = some x ∧ ((reached steps).step request).expr? = some y := by
      funext x y
      exact propext occurs_concat
    rw [hI, hC, reached_concat]
    exact hb.step (held_reached steps) request

end ArithTree.Session
