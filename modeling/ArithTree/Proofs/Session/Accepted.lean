import ArithTree.Proofs.Session.Books

/-!
# Handles are accepted where they belong

A draft takes the handles that it issued and no others, and an expression knows those that it or an
expression related to it by clones has issued. After any steps this follows from the books of the
session: a handle goes back to the source that its owner was made for (`Books.owns_iff`,
`Books.isSome_node?_iff`). What is accepted stands in range, in the nodes and in the depths beside
them.
-/

namespace ArithTree.Session

variable {s : Session} {n m : Nat} {d : Draft} {x : OwnedExpr} {h : Handle}

/-! ## Answers -/

theorem branch_foreignOperand {op : Op} {l r : Nat} {left right : Handle}
    (hd : s.draft n = .ok d) (hl : s.handle l = .ok left) (hr : s.handle r = .ok right) :
    (s.step (.branch n op l r)).1 = .error (.error .foreignOperand) ↔
      ¬ (d.owns left ∧ d.owns right) := by
  have hcombine : d.combine op left right = .error .foreignOperand ↔
      ¬ (d.owns left ∧ d.owns right) := by
    simp [Draft.combine_eq_error]
  rw [← hcombine]
  simp only [step, withFound, hd, hl, hr, Draft.serve]
  cases d.combine op left right with
  | ok issued => simp [addNode, addHandle]
  | error e => simp [addNode]

theorem extract_foreignOperand (hs : d.Sound) (hd : s.draft n = .ok d) (hh : s.handle m = .ok h) :
    (s.step (.extract n m)).1 = .error (.error .foreignOperand) ↔ ¬ d.owns h := by
  simp only [step, withFound, hd, hh]
  by_cases howns : d.owns h
  · obtain ⟨a, ha, -⟩ := hs.extract howns
    simp [ha, howns, addNew, addExpr]
  · simp [Draft.extract, howns, addNew]

theorem node_answer (hx : s.expr n = .ok x) (hh : s.handle m = .ok h) :
    (s.step (.node n m)).1 = .ok (.node (x.node? h)) := by
  simp only [step, withFound, hx, hh]

/-! ## Who accepts a handle -/

section
variable {I : Source → Handle → Prop} {C : Nat → Nat → Prop} {makers : Array Source}

theorem Books.exists_source (hb : s.Books I C makers) (hh : s.handle m = .ok h) :
    ∃ source, I source h :=
  hb.issued h (Array.mem_of_getElem? (handle_eq_ok.1 hh))

theorem Books.owns_of_issued (hb : s.Books I C makers) (hd : s.draft n = .ok d)
    (hI : I (.draft n) h) : d.owns h := by
  rw [draft_eq_ok] at hd
  cases hb.names _ _ hI with
  | usedUp hn =>
    rw [hd] at hn
    cases hn
  | draft hn howns =>
    rw [hd] at hn
    cases hn
    exact howns

theorem Books.owns_iff (hb : s.Books I C makers) (hd : s.draft n = .ok d)
    (hh : s.handle m = .ok h) : d.owns h ↔ I (.draft n) h := by
  constructor
  · intro howns
    obtain ⟨source, hI⟩ := hb.exists_source hh
    have hmade := hb.owner _ _ (.draft (draft_eq_ok.1 hd))
    rw [← (Draft.owns_iff.1 howns).1] at hmade
    cases hmade.alike (hb.issuer _ _ hI) with
    | draft => exact hI
  · exact hb.owns_of_issued hd

/-- The owner of a handle that an expression knows was made for this expression. -/
theorem Books.madeFor_expr (hb : s.Books I C makers) (hx : s.expr n = .ok x)
    (hnode : (x.node? h).isSome) : MadeFor makers C (.expr n) h.owner := by
  rw [(OwnedExpr.isSome_node?_iff.1 hnode).1]
  exact hb.owner _ _ (.expr (expr_eq_ok.1 hx))

/-- Clones of one another are the same. -/
theorem Books.same {y : Nat} (hb : s.Books I C makers) (hrelated : Relation.EqvGen C n y) :
    s.exprs[n]? = s.exprs[y]? := by
  induction hrelated with
  | rel n y h =>
    obtain ⟨e, hn, hy⟩ := hb.cloned n y h
    rw [hn, hy]
  | refl n => rfl
  | symm n y _ ih => exact ih.symm
  | trans n k y _ _ ih ih' => exact ih.trans ih'

theorem Books.isSome_node?_of_issued {y : Nat} (hb : s.Books I C makers) (hx : s.expr n = .ok x)
    (hrelated : Relation.EqvGen C n y) (hI : I (.expr y) h) : (x.node? h).isSome := by
  cases hb.names _ _ hI with
  | expr hy hnode =>
    rw [← hb.same hrelated, expr_eq_ok.1 hx] at hy
    cases hy
    exact hnode

theorem Books.isSome_node?_iff (hb : s.Books I C makers) (hx : s.expr n = .ok x)
    (hh : s.handle m = .ok h) :
    (x.node? h).isSome ↔ ∃ y, Relation.EqvGen C n y ∧ I (.expr y) h := by
  constructor
  · intro hnode
    obtain ⟨source, hI⟩ := hb.exists_source hh
    cases (hb.madeFor_expr hx hnode).alike (hb.issuer _ _ hI) with
    | expr hrelated => exact ⟨_, hrelated, hI⟩
  · intro hissued
    obtain ⟨y, hrelated, hI⟩ := hissued
    exact hb.isSome_node?_of_issued hx hrelated hI

theorem Books.node?_eq_none (hb : s.Books I C makers) (hx : s.expr n = .ok x) {number : Nat}
    (hI : I (.draft number) h) : x.node? h = none := by
  rw [← Option.not_isSome_iff_eq_none]
  intro hnode
  cases (hb.madeFor_expr hx hnode).alike (hb.issuer _ _ hI)

end

/-! ## After any steps -/

variable {steps : List Step}

/-- A live draft takes the handles that it issued and no others. They are in range, and an operand is
an earlier node than its operator, so its depth was there to be read when the operator was added. -/
structure TakesOwn (steps : List Step) (n : Nat) (d : Draft) : Prop where
  branch : ∀ op l r left right,
    (reached steps).handle l = .ok left → (reached steps).handle r = .ok right →
    (((reached steps).step (.branch n op l r)).1 ≠ .error (.error .foreignOperand) ↔
      Issued steps (.draft n) left ∧ Issued steps (.draft n) right)
  extract : ∀ m h, (reached steps).handle m = .ok h →
    (((reached steps).step (.extract n m)).1 ≠ .error (.error .foreignOperand) ↔
      Issued steps (.draft n) h)
  handle_lt : ∀ h, Issued steps (.draft n) h → h.index < d.nodes.size ∧ h.index < d.depths.size
  operand_lt : ∀ p i, Node.IsOperand d.nodes p i → i < p ∧ p < d.nodes.size ∧ p < d.depths.size

/-- An expression knows the handles that were issued by it or a related one and no others, none of a
draft in particular. They are in range, and so are the root and the operands of the nodes. -/
structure KnowsOwn (steps : List Step) (n : Nat) (x : OwnedExpr) : Prop where
  node : ∀ m h, (reached steps).handle m = .ok h →
    ((∃ entry, ((reached steps).step (.node n m)).1 = .ok (.node (some entry))) ↔
      ∃ y, Related steps n y ∧ Issued steps (.expr y) h)
  node_none : ∀ m h d, (reached steps).handle m = .ok h → Issued steps (.draft d) h →
    ((reached steps).step (.node n m)).1 = .ok (.node none)
  handle_lt : ∀ y h, Related steps n y → Issued steps (.expr y) h → h.index < x.arena.nodes.size
  root_lt : x.arena.root < x.arena.nodes.size
  operand_lt : ∀ p i, Node.IsOperand x.arena.nodes p i → i < p ∧ p < x.arena.nodes.size

theorem takesOwn (hd : (reached steps).draft n = .ok d) : TakesOwn steps n d := by
  obtain ⟨makers, hb⟩ := books_reached steps
  have hs : d.Sound := ((held_reached steps).served hd).sound
  constructor
  case branch =>
    intro op l r left right hl hr
    rw [ne_eq, branch_foreignOperand hd hl hr, not_not, hb.owns_iff hd hl, hb.owns_iff hd hr]
  case extract =>
    intro m h hh
    rw [ne_eq, extract_foreignOperand hs hd hh, not_not, hb.owns_iff hd hh]
  case handle_lt =>
    intro h hI
    have hlt : h.index < d.nodes.size := (Draft.owns_iff.1 (hb.owns_of_issued hd hI)).2
    exact ⟨hlt, hs.size_depths ▸ hlt⟩
  case operand_lt =>
    intro p i hoperand
    obtain ⟨node, hnode, hi⟩ := hoperand
    have hlt : p < d.nodes.size := (Array.getElem?_eq_some_iff.1 hnode).1
    exact ⟨hs.operands_lt p node hnode i hi, hlt, hs.size_depths ▸ hlt⟩

theorem knowsOwn (hx : (reached steps).expr n = .ok x) : KnowsOwn steps n x := by
  obtain ⟨makers, hb⟩ := books_reached steps
  have hcompact : x.arena.Compact := ((held_reached steps).obtained hx).compact
  constructor
  case node =>
    intro m h hh
    rw [node_answer hx hh, Related, ← hb.isSome_node?_iff hx hh, Option.isSome_iff_exists]
    simp
  case node_none =>
    intro m h d hh hI
    rw [node_answer hx hh, hb.node?_eq_none hx hI]
  case handle_lt =>
    intro y h hrelated hI
    exact (OwnedExpr.isSome_node?_iff.1 (hb.isSome_node?_of_issued hx hrelated hI)).2
  case root_lt =>
    have hlast : x.arena.root + 1 = x.arena.nodes.size := hcompact.root_last
    omega
  case operand_lt =>
    intro p i hoperand
    have hip : i < p := hcompact.operand_lt p i hoperand
    obtain ⟨node, hnode, -⟩ := hoperand
    exact ⟨hip, (Array.getElem?_eq_some_iff.1 hnode).1⟩

/-- **Handles are accepted where they belong.** After any steps, failed ones included, a live draft
takes exactly the handles that it issued, and an expression knows exactly those that it or an
expression related to it by clones has issued, so none of the draft that it was extracted from.
Whatever is accepted is in range. -/
theorem accepted_iff_issued (steps : List Step) :
    (∀ n d, (reached steps).draft n = .ok d → TakesOwn steps n d) ∧
    ∀ n x, (reached steps).expr n = .ok x → KnowsOwn steps n x :=
  ⟨fun _ _ => takesOwn, fun _ _ => knowsOwn⟩

/-- A clone knows the root of its expression and no node of a draft. -/
theorem accepted_iff_issued_clone :
    let steps : List Step := [.newDraft, .lit 0 4, .number 1, .root 0, .clone 0]
    ((reached steps).step (.extract 0 0)).1 ≠ .error (.error .foreignOperand) ∧
    ((reached steps).step (.extract 0 1)).1 = .error (.error .foreignOperand) ∧
    (∃ entry, ((reached steps).step (.node 1 1)).1 = .ok (.node (some entry))) ∧
    ((reached steps).step (.node 1 0)).1 = .ok (.node none) := by
  intro steps
  have hfour : Issued steps (.draft 0) ⟨0, 0⟩ :=
    ⟨[.newDraft], .lit 0 4, [.number 1, .root 0, .clone 0], rfl, rfl, rfl⟩
  have hone : Issued steps (.expr 0) ⟨1, 0⟩ :=
    ⟨[.newDraft, .lit 0 4, .number 1], .root 0, [.clone 0], rfl, rfl, rfl⟩
  have hclone : Cloned steps 0 1 :=
    ⟨[.newDraft, .lit 0 4, .number 1, .root 0], .clone 0, [], rfl, rfl, rfl⟩
  have htakes := (accepted_iff_issued steps).1 0 _ rfl
  have hknows := (accepted_iff_issued steps).2 1 _ rfl
  refine ⟨(htakes.extract 0 ⟨0, 0⟩ rfl).2 hfour, rfl, ?_, hknows.node_none 0 ⟨0, 0⟩ 0 rfl hfour⟩
  exact (hknows.node 1 ⟨1, 0⟩ rfl).2 ⟨0, .symm _ _ (.rel _ _ hclone), hone⟩

end ArithTree.Session
