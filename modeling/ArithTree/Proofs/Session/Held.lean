import ArithTree.Proofs.Arena.Compact
import ArithTree.Session

/-!
# What a session holds

A session starts with nothing, and whatever it comes to hold is made by its steps: a draft by serving
requests (`Draft.Served`), an expression in one of the ways of `Arena.Obtained`. One step keeps this
(`Held.step`), so after any steps, failed ones included, every expression of a session stands in a
compact arena (`compact_of_mem_run`). There the root and the operands of a node are nodes that the
expression has (`OwnedExpr.isSome_node?_operand`).
-/

namespace ArithTree

/-- The draft has served requests, and what it copied was made before. -/
def Draft.Served (d : Draft) : Prop :=
  ∃ owner requests, (∀ b, Request.copy b ∈ requests → b.Obtained) ∧
    ({ owner } : Draft).serveAll requests = d

theorem Draft.Served.serve {d : Draft} {request : Request} (hd : d.Served)
    (hcopy : ∀ b, request = .copy b → b.Obtained) : (d.serve request).2.Served := by
  obtain ⟨owner, requests, hcopies, rfl⟩ := hd
  refine ⟨owner, requests ++ [request], ?_, by simp [serveAll]⟩
  intro b hb
  rcases List.mem_append.1 hb with hb | hb
  · exact hcopies b hb
  · exact hcopy b (List.mem_singleton.1 hb).symm

theorem Draft.Served.extract {d : Draft} {root : Handle} {a : Arena} (hd : d.Served)
    (ha : d.extract root = .ok a) : a.Obtained := by
  obtain ⟨owner, requests, hcopies, rfl⟩ := hd
  exact .extract hcopies ha

theorem Draft.Served.sound {d : Draft} (hd : d.Served) : d.Sound := by
  obtain ⟨owner, requests, -, rfl⟩ := hd
  exact ((sound_empty owner).serveAll requests).1

namespace OwnedExpr

variable {x : OwnedExpr} {h : Handle}

theorem isSome_node?_iff : (x.node? h).isSome ↔ h.owner = x.owner ∧ h.index < x.arena.nodes.size := by
  unfold node?
  split <;> simp_all

theorem isSome_node?_root (hx : x.arena.Compact) :
    (x.node? ⟨x.owner, x.arena.root⟩).isSome := by
  have hlast : x.arena.root + 1 = x.arena.nodes.size := hx.root_last
  have hlt : x.arena.root < x.arena.nodes.size := by omega
  exact isSome_node?_iff.2 ⟨rfl, hlt⟩

theorem isSome_node?_operand {operand : Handle} {position : Nat} (hx : x.arena.Compact)
    (ho : x.operand? h position = some operand) :
    (x.node? operand).isSome ∧ operand.owner = x.owner := by
  simp only [operand?, node?, Option.bind_eq_bind, Option.bind_eq_some_iff, Option.pure_def,
    Option.some.injEq] at ho
  obtain ⟨⟨i, n⟩, hn, index, hindex, rfl⟩ := ho
  split at hn
  · simp only [Option.map_eq_some_iff, Prod.mk.injEq] at hn
    obtain ⟨_, hn, -, rfl⟩ := hn
    have hlt : index < h.index := hx.operand_lt _ _ ⟨_, hn, List.mem_of_getElem? hindex⟩
    have hsize : h.index < x.arena.nodes.size := (Array.getElem?_eq_some_iff.1 hn).1
    exact ⟨isSome_node?_iff.2 ⟨rfl, Nat.lt_trans hlt hsize⟩, rfl⟩
  · cases hn

end OwnedExpr

namespace Session

/-- Nothing in the session but what was made. -/
structure Held (s : Session) : Prop where
  draft : ∀ d, some d ∈ s.drafts → d.Served
  expr : ∀ x ∈ s.exprs, x.arena.Obtained

variable {s : Session} {number : Nat}

/-! ## What is found -/

theorem Held.found {α : Type} {found : Except Fault α} {f : α → Result} (hs : s.Held)
    (hf : ∀ a, found = .ok a → (f a).2.Held) : (s.withFound found f).2.Held := by
  cases found with
  | ok a => exact hf a rfl
  | error fault => exact hs

theorem draft_eq_ok {d : Draft} : s.draft number = .ok d ↔ s.drafts[number]? = some (some d) := by
  rw [draft]
  split <;> simp_all

theorem handle_eq_ok {h : Handle} : s.handle number = .ok h ↔ s.handles[number]? = some h := by
  rw [handle]
  split <;> simp_all

theorem expr_eq_ok {x : OwnedExpr} : s.expr number = .ok x ↔ s.exprs[number]? = some x := by
  rw [expr]
  split <;> simp_all

theorem Held.served {d : Draft} (hs : s.Held) (hd : s.draft number = .ok d) : d.Served :=
  hs.draft d (Array.mem_of_getElem? (draft_eq_ok.1 hd))

theorem Held.obtained {x : OwnedExpr} (hs : s.Held) (hx : s.expr number = .ok x) :
    x.arena.Obtained :=
  hs.expr x (Array.mem_of_getElem? (expr_eq_ok.1 hx))

/-! ## What is added -/

theorem Held.setDraft {place : Option Draft} (hs : s.Held)
    (hplace : ∀ d, place = some d → d.Served) :
    Held { s with drafts := s.drafts.setIfInBounds number place } where
  draft d hd := by
    rcases Array.mem_or_eq_of_mem_setIfInBounds hd with hd | hd
    · exact hs.draft d hd
    · exact hplace d hd.symm
  expr := hs.expr

theorem Held.addHandle {h : Handle} (hs : s.Held) : (s.addHandle h).2.Held :=
  ⟨hs.draft, hs.expr⟩

theorem Held.addNode {served : Except Error Handle × Draft} (hs : s.Held)
    (hd : served.2.Served) : (s.addNode number served).2.Held := by
  obtain ⟨answer, d⟩ := served
  cases answer with
  | ok h =>
    refine (hs.setDraft ?_).addHandle
    rintro _ ⟨⟩
    exact hd
  | error e => exact hs

theorem Held.addExpr {x : OwnedExpr} (hs : s.Held) (hx : x.arena.Obtained) :
    (s.addExpr x).2.Held where
  draft := hs.draft
  expr y hy := by
    rcases Array.mem_push.1 hy with hy | rfl
    · exact hs.expr y hy
    · exact hx

theorem Held.addNew {made : Except Error Arena} (hs : s.Held)
    (hmade : ∀ a, made = .ok a → a.Obtained) : (s.addNew made).2.Held := by
  cases made with
  | ok a =>
    have hcounted : Held { s with owners := s.owners + 1 } := ⟨hs.draft, hs.expr⟩
    exact hcounted.addExpr (hmade a rfl)
  | error e => exact hs

/-! ## Steps -/

theorem Held.step (hs : s.Held) (request : Step) : (s.step request).2.Held := by
  cases request with
  | newDraft =>
    refine ⟨fun d hd => ?_, hs.expr⟩
    rcases Array.mem_push.1 hd with hd | hd
    · exact hs.draft d hd
    · cases hd
      exact ⟨s.owners, [], by simp, rfl⟩
  | lit d v =>
    refine hs.found fun draft hd => hs.addNode ?_
    exact (hs.served hd).serve (by simp)
  | branch d op l r =>
    refine hs.found fun draft hd => hs.found fun left _ => hs.found fun right _ => hs.addNode ?_
    exact (hs.served hd).serve (by simp)
  | copy d x =>
    refine hs.found fun draft hd => hs.found fun x hx => hs.addNode ?_
    refine (hs.served hd).serve ?_
    rintro _ ⟨⟩
    exact hs.obtained hx
  | extract d root =>
    refine hs.found fun draft hd => hs.found fun h _ => ?_
    have hused : (s.useUp d).Held := hs.setDraft (by simp)
    exact hused.addNew fun a ha => (hs.served hd).extract ha
  | number v =>
    refine hs.addNew ?_
    rintro _ ⟨⟩
    exact .number v
  | combine op l r =>
    refine hs.found fun left hl => hs.found fun right hr => hs.addNew fun a ha => ?_
    exact .combine (hs.obtained hl) (hs.obtained hr) ha
  | read dialect source => exact hs.addNew fun a ha => .read ha
  | clone x => exact hs.found fun x hx => hs.addExpr (hs.obtained hx)
  | root x => exact hs.found fun x _ => hs.addHandle
  | node x n => exact hs.found fun x _ => hs.found fun h _ => hs
  | operand x n position =>
    refine hs.found fun x _ => hs.found fun h _ => ?_
    split
    · exact hs.addHandle
    · exact hs
  | equal l r => exact hs.found fun left _ => hs.found fun right _ => hs
  | eval x table =>
    refine hs.found fun x _ => ?_
    split
    · exact hs
    · exact hs
  | write x writing => exact hs.found fun x _ => hs
  | walk x => exact hs.found fun x _ => hs

theorem Held.run (hs : s.Held) (steps : List Step) : (s.run steps).2.Held := by
  induction steps generalizing s with
  | nil => exact hs
  | cons first others ih => exact ih (hs.step first)

theorem held_empty : Held {} := ⟨by simp, by simp⟩

/-- Whatever a session does, its expressions stand in compact arenas. -/
theorem compact_of_mem_run (steps : List Step) {x : OwnedExpr}
    (hx : x ∈ (({} : Session).run steps).2.exprs) : x.arena.Compact :=
  ((held_empty.run steps).expr x hx).compact

end Session

end ArithTree
