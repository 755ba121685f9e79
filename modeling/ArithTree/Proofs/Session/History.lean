import ArithTree.Proofs.Session.Held

/-!
# What happened in a session

A draft issues the handles of the nodes that it adds, an expression those of its root and of the
operands of its nodes. `Issued steps source h` says that one of the steps got `h` from `source`, and
`Related steps` joins the expressions that clones lead to from one another. A step more adds what
happens in it (`occurs_concat`).
-/

namespace ArithTree.Session

/-- What issues handles: a draft or an expression, given by number. -/
inductive Source where
  | draft (number : Nat)
  | expr (number : Nat)

/-- What a step asks for a handle. -/
def Step.source? : Step → Option Source
  | .lit d _ => some (.draft d)
  | .branch d _ _ _ => some (.draft d)
  | .copy d _ => some (.draft d)
  | .root x => some (.expr x)
  | .operand x _ _ => some (.expr x)
  | _ => none

/-- The expression that a step clones. -/
def Step.original? : Step → Option Nat
  | .clone x => some x
  | _ => none

/-- The handle that is given. -/
def Result.handle? : Result → Option Handle
  | (.ok (.handle number _), s) => s.handles[number]?
  | _ => none

/-- The number of the expression that is given. -/
def Result.expr? : Result → Option Nat
  | (.ok (.expr number _), _) => some number
  | _ => none

/-! ## Histories -/

/-- The session after steps from its start. -/
def reached (steps : List Step) : Session := (({} : Session).run steps).2

/-- `P` holds of one of the steps and the session in which it is taken. -/
def Occurs (steps : List Step) (P : Session → Step → Prop) : Prop :=
  ∃ before request after, steps = before ++ request :: after ∧ P (reached before) request

/-- One of the steps got the handle from the source. -/
def Issued (steps : List Step) (source : Source) (h : Handle) : Prop :=
  Occurs steps fun s request => request.source? = some source ∧ (s.step request).handle? = some h

/-- One of the steps cloned the expression `x` and gave the clone the number `y`. -/
def Cloned (steps : List Step) (x y : Nat) : Prop :=
  Occurs steps fun s request => request.original? = some x ∧ (s.step request).expr? = some y

/-- Clones lead from one expression to the other, whichever of two is the clone. -/
def Related (steps : List Step) : Nat → Nat → Prop := Relation.EqvGen (Cloned steps)

variable {s : Session} {steps : List Step} {request : Step} {P : Session → Step → Prop}

theorem run_append (s : Session) (steps later : List Step) :
    (s.run (steps ++ later)).2 = ((s.run steps).2.run later).2 := by
  induction steps generalizing s with
  | nil => rfl
  | cons first others ih => exact ih (s.step first).2

theorem reached_concat (steps : List Step) (request : Step) :
    reached (steps ++ [request]) = ((reached steps).step request).2 := by
  rw [reached, run_append]
  rfl

theorem held_reached (steps : List Step) : (reached steps).Held :=
  held_empty.run steps

theorem not_occurs_nil : ¬ Occurs [] P := by
  intro h
  obtain ⟨before, request, after, heq, -⟩ := h
  exact List.append_ne_nil_of_right_ne_nil before (List.cons_ne_nil request after) heq.symm

theorem occurs_concat :
    Occurs (steps ++ [request]) P ↔ Occurs steps P ∨ P (reached steps) request := by
  constructor
  · intro h
    obtain ⟨before, step, after, heq, hP⟩ := h
    rcases List.eq_nil_or_concat after with rfl | ⟨others, last, rfl⟩
    · obtain ⟨rfl, hlast⟩ := List.append_inj' heq rfl
      cases hlast
      exact .inr hP
    · rw [List.concat_eq_append, ← List.cons_append, ← List.append_assoc] at heq
      obtain ⟨rfl, -⟩ := List.append_inj' heq rfl
      exact .inl ⟨before, step, others, rfl, hP⟩
  · intro h
    rcases h with ⟨before, step, after, rfl, hP⟩ | hP
    · exact ⟨before, step, after ++ [request], by simp, hP⟩
    · exact ⟨steps, request, [], rfl, hP⟩

end ArithTree.Session
