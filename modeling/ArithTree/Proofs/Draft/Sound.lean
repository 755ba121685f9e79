import ArithTree.Draft

/-!
# Soundness of drafts

`Draft.Sound d`: operands are earlier nodes, and the depth recorded beside a node is the depth of the
tree below it, which has at most `maxDepth` levels. Whatever is asked of a sound draft leaves a sound
draft (`Sound.serve`): a refusal changes nothing, an operator over two nodes of the draft gets the
depth that the records of its operands give (`Sound.branch`), and a copy, which is added without a
look at the limit, comes from an expression (`Sound.addTree`). Nodes are only ever added, so a handle
goes on to name the same tree (`Extends.holds`). `sound_serveAll` says all this of every draft there
is.
-/

namespace ArithTree.Draft

/-- The handle names a node of the draft, and `t` is the tree below it. -/
def Holds (d : Draft) (h : Handle) (t : Tree) : Prop :=
  d.owns h ∧ Node.treeAt? d.nodes h.index = some t

/-- The records of a draft are in order. -/
structure Sound (d : Draft) : Prop where
  size_depths : d.depths.size = d.nodes.size
  operands_lt : ∀ (i : Nat) (n : Node), d.nodes[i]? = some n → ∀ k ∈ n.operands, k < i
  depth : ∀ i, i < d.nodes.size → ∃ t, Node.treeAt? d.nodes i = some t ∧
    d.depths[i]? = some t.depth ∧ 1 ≤ t.depth ∧ t.depth ≤ maxDepth

/-- Nothing but nodes at the end was added. -/
def Extends (d d' : Draft) : Prop := d'.owner = d.owner ∧ ∃ more, d'.nodes = d.nodes ++ more

variable {d d' : Draft} {h l r : Handle} {t u : Tree} {op : Op}

/-! ## Growing drafts -/

theorem Extends.refl (d : Draft) : d.Extends d := ⟨rfl, #[], by simp⟩

theorem Extends.trans {d'' : Draft} (h : d.Extends d') (h' : d'.Extends d'') : d.Extends d'' := by
  obtain ⟨ho, more, hn⟩ := h
  obtain ⟨ho', more', hn'⟩ := h'
  exact ⟨ho'.trans ho, more ++ more', by rw [hn', hn, Array.append_assoc]⟩

theorem Extends.push (d : Draft) (n : Node) : d.Extends (d.push n).2 :=
  ⟨rfl, #[n], Array.push_eq_append⟩

theorem Extends.addTree (d : Draft) (t : Tree) : d.Extends (d.addTree t).2 := by
  induction t generalizing d with
  | lit v => exact .push d _
  | node op l r ihl ihr => exact ((ihl d).trans (ihr _)).trans (.push _ _)

theorem owns_iff : d.owns h ↔ h.owner = d.owner ∧ h.index < d.nodes.size := by
  simp only [owns, Bool.and_eq_true, beq_iff_eq, decide_eq_true_eq]

/-- A draft keeps its nodes. -/
theorem Extends.owns (he : d.Extends d') (howns : d.owns h) : d'.owns h := by
  obtain ⟨ho, more, hn⟩ := he
  rw [owns_iff] at howns ⊢
  refine ⟨howns.1.trans ho.symm, ?_⟩
  rw [hn, Array.size_append]
  omega

/-- A handle keeps its tree. -/
theorem Extends.holds (he : d.Extends d') (h' : d.Holds h t) : d'.Holds h t := by
  obtain ⟨-, more, hn⟩ := id he
  exact ⟨he.owns h'.1, hn ▸ Node.treeAt?_append h'.2 more⟩

theorem holds_push {n : Node} (ht : Node.treeAt? (d.nodes.push n) d.nodes.size = some t) :
    (d.push n).2.Holds (d.push n).1 t :=
  ⟨by simp [owns, push], ht⟩

theorem holds_addTree (d : Draft) (t : Tree) : (d.addTree t).2.Holds (d.addTree t).1 t := by
  refine ⟨?_, treeAt?_addTree d t⟩
  have howner : (d.addTree t).1.owner = (d.addTree t).2.owner := by cases t <;> rfl
  simp [owns, howner, Node.lt_size_of_treeAt? (treeAt?_addTree d t)]

/-! ## Sound drafts -/

theorem sound_empty (owner : Nat) : Sound { owner } where
  size_depths := rfl
  operands_lt := by simp
  depth := by simp

theorem Sound.holds (hs : d.Sound) (howns : d.owns h) : ∃ t, d.Holds h t := by
  obtain ⟨t, ht, -⟩ := hs.depth _ (owns_iff.1 howns).2
  exact ⟨t, howns, ht⟩

theorem Sound.depths_eq (hs : d.Sound) (h' : d.Holds h t) : d.depths[h.index]? = some t.depth := by
  obtain ⟨u, hu, hdepth, -⟩ := hs.depth _ (Node.lt_size_of_treeAt? h'.2)
  rw [h'.2, Option.some_inj] at hu
  rw [hdepth, hu]

theorem Sound.depth_le (hs : d.Sound) (h' : d.Holds h t) : t.depth ≤ maxDepth := by
  obtain ⟨u, hu, -, -, hle⟩ := hs.depth _ (Node.lt_size_of_treeAt? h'.2)
  rw [h'.2, Option.some_inj] at hu
  rwa [hu]

theorem Sound.depthOf_branch (hs : d.Sound) (hl : d.Holds l t) (hr : d.Holds r u) :
    d.depthOf (.branch op l.index r.index) = (Tree.node op t u).depth := by
  simp [depthOf, depthAt, hs.depths_eq hl, hs.depths_eq hr]

/-- One more node, over earlier ones, of the depth that is recorded for it. -/
theorem Sound.push (hs : d.Sound) {n : Node} (hlt : ∀ k ∈ n.operands, k < d.nodes.size)
    (ht : Node.treeAt? (d.nodes.push n) d.nodes.size = some t) (hdepth : d.depthOf n = t.depth)
    (hle : t.depth ≤ maxDepth) : (d.push n).2.Sound where
  size_depths := by simp [Draft.push, hs.size_depths]
  operands_lt := by
    intro i m hm
    rw [nodes_push, Array.getElem?_push] at hm
    split at hm
    · rename_i hi
      cases hm
      rwa [hi]
    · exact hs.operands_lt i m hm
  depth := by
    intro i hi
    rw [nodes_push, Array.size_push] at hi
    by_cases hlast : i = d.nodes.size
    · subst hlast
      refine ⟨t, ht, ?_, t.depth_pos, hle⟩
      simp [Draft.push, ← hs.size_depths, hdepth]
    · obtain ⟨u, hu, hd, hpos, hmax⟩ := hs.depth i (by omega)
      refine ⟨u, ?_, ?_, hpos, hmax⟩
      · rw [nodes_push, Array.push_eq_append]
        exact Node.treeAt?_append hu _
      · have hi' : i < d.depths.size := (Array.getElem?_eq_some_iff.1 hd).1
        simp only [Draft.push]
        rw [Array.getElem?_push_lt hi', ← hd, Array.getElem?_eq_getElem hi']

theorem treeAt?_push_lit (d : Draft) (v : Int64) :
    Node.treeAt? (d.nodes.push (.lit v)) d.nodes.size = some (.lit v) :=
  Node.treeAt?_eq_lit.2 Array.getElem?_push_size

theorem treeAt?_push_branch (hl : d.Holds l t) (hr : d.Holds r u) :
    Node.treeAt? (d.nodes.push (.branch op l.index r.index)) d.nodes.size =
      some (.node op t u) := by
  refine Node.treeAt?_eq_node.2 ⟨l.index, r.index, Array.getElem?_push_size,
    ⟨Node.lt_size_of_treeAt? hl.2, Node.lt_size_of_treeAt? hr.2⟩, ?_, ?_⟩
  · rw [Array.push_eq_append]
    exact Node.treeAt?_append hl.2 _
  · rw [Array.push_eq_append]
    exact Node.treeAt?_append hr.2 _

theorem Sound.lit (hs : d.Sound) (v : Int64) : (d.lit v).2.Sound :=
  hs.push (by simp [Node.operands]) (treeAt?_push_lit d v) rfl (Expr.depth_lit_le v)

theorem Sound.branch (hs : d.Sound) (hl : d.Holds l t) (hr : d.Holds r u)
    (hle : (Tree.node op t u).depth ≤ maxDepth) :
    (d.push (.branch op l.index r.index)).2.Sound := by
  refine hs.push ?_ (treeAt?_push_branch hl hr) (hs.depthOf_branch hl hr) hle
  intro k hk
  simp only [Node.operands, List.mem_cons, List.not_mem_nil, or_false] at hk
  rcases hk with rfl | rfl
  · exact Node.lt_size_of_treeAt? hl.2
  · exact Node.lt_size_of_treeAt? hr.2

/-- The limit is not looked at here: it holds because the tree keeps it. -/
theorem Sound.addTree (hs : d.Sound) (hle : t.depth ≤ maxDepth) : (d.addTree t).2.Sound := by
  induction t generalizing d with
  | lit v => exact hs.lit v
  | node op t u iht ihu =>
    rw [Tree.depth_node] at hle
    have hst : (d.addTree t).2.Sound := iht hs (by omega)
    have hsu : ((d.addTree t).2.addTree u).2.Sound := ihu hst (by omega)
    exact hsu.branch ((Extends.addTree _ u).holds (holds_addTree d t)) (holds_addTree _ u)
      (by rwa [Tree.depth_node])

/-! ## Requests -/

theorem combine_eq_ok {issued : Handle × Draft} : d.combine op l r = .ok issued ↔
    (d.owns l ∧ d.owns r) ∧ d.depthOf (.branch op l.index r.index) ≤ maxDepth ∧
      issued = d.push (.branch op l.index r.index) := by
  unfold combine
  by_cases howns : d.owns l ∧ d.owns r
  · by_cases hle : d.depthOf (.branch op l.index r.index) ≤ maxDepth <;>
      simp [howns, hle, eq_comm]
  · simp [howns]

theorem combine_eq_error {err : Error} : d.combine op l r = .error err ↔
    err = .foreignOperand ∧ ¬ (d.owns l ∧ d.owns r) ∨
    err = .tooDeep ∧ (d.owns l ∧ d.owns r) ∧
      maxDepth < d.depthOf (.branch op l.index r.index) := by
  unfold combine
  by_cases howns : d.owns l ∧ d.owns r
  · by_cases hle : d.depthOf (.branch op l.index r.index) ≤ maxDepth
    · simp [howns, hle, Nat.not_lt.2 hle]
    · simp [howns, hle, Nat.lt_of_not_le hle, eq_comm (a := err)]
  · simp [howns, eq_comm (a := err)]

/-- Why an operator over two nodes is refused. A foreign operand is found first. -/
def Refuses (d : Draft) (l r : Handle) (err : Error) : Prop :=
  err = .foreignOperand ∧ ¬ (d.owns l ∧ d.owns r) ∨
  err = .tooDeep ∧ ∃ t u, d.Holds l t ∧ d.Holds r u ∧ maxDepth < 1 + max t.depth u.depth

theorem Sound.combine_eq_error (hs : d.Sound) {err : Error} :
    d.combine op l r = .error err ↔ d.Refuses l r err := by
  rw [Draft.combine_eq_error, Refuses]
  refine or_congr_right (and_congr_right fun _ => ?_)
  constructor
  · rintro ⟨⟨hl, hr⟩, hlt⟩
    obtain ⟨t, ht⟩ := hs.holds hl
    obtain ⟨u, hu⟩ := hs.holds hr
    rw [hs.depthOf_branch ht hu] at hlt
    exact ⟨t, u, ht, hu, hlt⟩
  · rintro ⟨t, u, ht, hu, hlt⟩
    refine ⟨⟨ht.1, hu.1⟩, ?_⟩
    rwa [hs.depthOf_branch ht hu]

theorem serve_combine_eq_error {err : Error} :
    d.serve (.combine op l r) = (.error err, d') ↔ d' = d ∧ d.combine op l r = .error err := by
  rw [serve]
  cases d.combine op l r with
  | ok issued => simp
  | error e => simp [eq_comm, and_comm]

/-- What a granted request does: it adds nodes, and its handle names a tree. -/
theorem Sound.serve_ok (hs : d.Sound) {request : Request}
    (hok : d.serve request = (.ok h, d')) : d'.Sound ∧ d.Extends d' ∧ ∃ t, d'.Holds h t := by
  cases request with
  | lit v =>
    cases hok
    exact ⟨hs.lit v, .push d _, _, holds_push (treeAt?_push_lit d v)⟩
  | combine op l r =>
    rw [serve] at hok
    split at hok
    · rename_i hc
      cases hok
      obtain ⟨⟨hl, hr⟩, hle, heq⟩ := combine_eq_ok.1 hc
      cases heq
      obtain ⟨t, ht⟩ := hs.holds hl
      obtain ⟨u, hu⟩ := hs.holds hr
      rw [hs.depthOf_branch ht hu] at hle
      exact ⟨hs.branch ht hu hle, .push d _, _, holds_push (treeAt?_push_branch ht hu)⟩
    · cases hok
  | copy a =>
    rw [serve, copy_eq] at hok
    cases hok
    exact ⟨hs.addTree a.expr.depth_le, .addTree d _, _, holds_addTree d _⟩

theorem Sound.serve (hs : d.Sound) (request : Request) :
    (d.serve request).2.Sound ∧ d.Extends (d.serve request).2 := by
  cases hserve : d.serve request with
  | mk answer d' =>
    cases answer with
    | ok h =>
      obtain ⟨hs', he, -⟩ := hs.serve_ok hserve
      exact ⟨hs', he⟩
    | error err =>
      -- only an operator over two nodes can be refused
      cases request with
      | lit v => cases hserve
      | combine op l r =>
        obtain ⟨rfl, -⟩ := serve_combine_eq_error.1 hserve
        exact ⟨hs, .refl d'⟩
      | copy a => cases hserve

theorem Sound.serveAll (hs : d.Sound) (requests : List Request) :
    (d.serveAll requests).Sound ∧ d.Extends (d.serveAll requests) := by
  induction requests generalizing d with
  | nil => exact ⟨hs, .refl d⟩
  | cons request requests ih =>
    obtain ⟨hs', he⟩ := hs.serve request
    obtain ⟨hs'', he'⟩ := ih hs'
    exact ⟨hs'', he.trans he'⟩

/-- **A draft keeps its books.** After any requests, refused ones included, the records of a draft
are in order. An operator over two nodes is refused exactly for a foreign operand or for its depth,
and a refusal leaves the draft as it was. A granted request gives the handle of a tree, and no later
request changes the tree or the recorded depth of a handle. -/
theorem sound_serveAll (owner : Nat) (requests : List Request) :
    let d := ({ owner } : Draft).serveAll requests
    d.Sound ∧
    (∀ op l r err d',
      d.serve (.combine op l r) = (.error err, d') ↔ d' = d ∧ d.Refuses l r err) ∧
    (∀ request h d', d.serve request = (.ok h, d') → ∃ t, d'.Holds h t) ∧
    ∀ later h t, d.Holds h t → (d.serveAll later).Holds h t ∧
      (d.serveAll later).depths[h.index]? = d.depths[h.index]? := by
  intro d
  have hs : d.Sound := ((sound_empty owner).serveAll requests).1
  refine ⟨hs, fun op l r err d' => ?_, fun request h d' hok => ?_, fun later h t ht => ?_⟩
  · rw [serve_combine_eq_error, hs.combine_eq_error]
  · exact (hs.serve_ok hok).2.2
  · obtain ⟨hs', he⟩ := hs.serveAll later
    have ht' : (d.serveAll later).Holds h t := he.holds ht
    exact ⟨ht', by rw [hs'.depths_eq ht', hs.depths_eq ht]⟩

/-- The square of a literal keeps its tree, whatever is refused or added after it. -/
theorem sound_serveAll_square :
    let d := ({ owner := 0 } : Draft).serveAll [.lit 4, .combine .mul ⟨0, 0⟩ ⟨0, 0⟩]
    d.Holds ⟨0, 1⟩ (.node .mul (.lit 4) (.lit 4)) ∧
      (d.serveAll [.combine .add ⟨0, 1⟩ ⟨3, 1⟩, .lit 5]).Holds ⟨0, 1⟩
        (.node .mul (.lit 4) (.lit 4)) := by
  intro d
  have hfour : Node.treeAt? d.nodes 0 = some (.lit 4) := Node.treeAt?_eq_lit.2 rfl
  have hsquare : d.Holds ⟨0, 1⟩ (.node .mul (.lit 4) (.lit 4)) :=
    ⟨rfl, Node.treeAt?_eq_node.2 ⟨0, 0, rfl, by decide, hfour, hfour⟩⟩
  exact ⟨hsquare, ((sound_serveAll 0 _).2.2.2 _ _ _ hsquare).1⟩

end ArithTree.Draft
