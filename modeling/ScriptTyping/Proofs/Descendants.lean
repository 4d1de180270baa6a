import ScriptTyping.Proofs.Ancestry

/-!
# Descendants

The walk from a node lists exactly the nodes that it reaches. Children may be shared or missing;
that no node is above itself is enough for the walk to end in time.
-/

namespace ScriptTyping.Tree

variable {t : Tree} {c i n p root : NodeIndex} {d k : Nat} {rest : List NodeIndex}

/-- No node stands above itself. -/
def Acyclic (t : Tree) : Prop := ∀ i, ¬ t.Above i i

/-- The same of the nodes that `root` reaches. -/
def AcyclicBelow (t : Tree) (root : NodeIndex) : Prop := ∀ i, t.Reaches root i → ¬ t.Above i i

theorem Acyclic.below (h : t.Acyclic) (root : NodeIndex) : t.AcyclicBelow root :=
  fun i _ => h i

theorem Proper.acyclicBelow (h : t.Proper root) : t.AcyclicBelow root :=
  fun _ hi => h.acyclic hi

theorem AcyclicBelow.child (h : t.AcyclicBelow p) (hc : t.Child p c) : t.AcyclicBelow c :=
  fun i hi => h i (hc.reaches.trans hi)

/-- `n` is a node, and it is `i` or stands below it. -/
def Spans (t : Tree) (i n : NodeIndex) : Prop := t.Reaches i n ∧ ∃ node, t.get? n = some node

/-- No path down from `i` has more than `d` nodes. -/
def Bounded (t : Tree) : Nat → NodeIndex → Prop
  | 0, i => t.get? i = none
  | d + 1, i => ∀ c, t.Child i c → t.Bounded d c

theorem get_of_child (hc : t.Child p c) : ∃ node, t.get? p = some node := by
  obtain ⟨kind, hk, -⟩ := kind_of_child hc
  obtain ⟨node, hnode, -⟩ := Option.map_eq_some_iff.mp hk
  exact ⟨node, hnode⟩

theorem Reaches.missing (h : t.Reaches i n) (hi : t.get? i = none) : t.get? n = none := by
  rcases h.eq_or_above with rfl | habove
  · exact hi
  · obtain ⟨c, hc, -⟩ := habove.first
    obtain ⟨node, hnode⟩ := get_of_child hc
    simp [hi] at hnode

theorem AcyclicBelow.extent_lt (h : t.AcyclicBelow p) (hc : t.Child p c) :
    t.extent c < t.extent p := by
  obtain ⟨node, hnode⟩ := get_of_child hc
  refine extent_lt_of_child (lt_size_of_get hnode) hc ?_
  intro hcp
  exact h p (.refl t p) (hc.above.trans_reaches hcp)

theorem AcyclicBelow.bounded (h : t.AcyclicBelow i) (hi : t.extent i ≤ d) : t.Bounded d i := by
  induction d generalizing i with
  | zero =>
    classical
    rw [Bounded, Option.eq_none_iff_forall_ne_some]
    intro node hnode
    have hpos : 0 < t.extent i := Finset.card_pos.mpr ⟨i, Finset.mem_filter.mpr
      ⟨Finset.mem_range.mpr (lt_size_of_get hnode), Reaches.refl t i⟩⟩
    omega
  | succ d ih =>
    intro c hc
    have hlt := h.extent_lt hc
    exact ih (h.child hc) (by omega)

/-! ## The walk -/

/-- The node and everything below it, to the given depth. -/
def preorder (t : Tree) : Nat → NodeIndex → List NodeIndex
  | 0, _ => []
  | d + 1, i =>
    match t.get? i with
    | none => []
    | some node => i :: node.kind.children.flatMap (t.preorder d)

theorem walk_children {cs : List NodeIndex}
    (ih : ∀ c ∈ cs, ∀ k rest, t.walk (t.entries d c + k) (c :: rest) =
      t.preorder d c ++ t.walk k rest) :
    t.walk (cs.foldr (fun c steps => t.entries d c + steps) 0 + k) (cs ++ rest) =
      cs.flatMap (t.preorder d) ++ t.walk k rest := by
  induction cs with
  | nil => simp
  | cons c cs ihcs =>
    have hrest := ihcs fun c' hc' => ih c' (by simp [hc'])
    rw [List.foldr_cons, List.cons_append, Nat.add_assoc, ih c (by simp), hrest,
      List.flatMap_cons, List.append_assoc]

theorem walk_eq (hi : t.Bounded d i) :
    t.walk (t.entries d i + k) (i :: rest) = t.preorder d i ++ t.walk k rest := by
  induction d generalizing i k rest with
  | zero =>
    rw [Bounded] at hi
    rw [entries, Nat.add_comm, walk, hi, preorder, List.nil_append]
  | succ d ih =>
    rw [entries, Nat.add_assoc, Nat.add_comm 1, walk, preorder]
    cases hnode : t.get? i with
    | none => simp [children, kind?, hnode]
    | some node =>
      have hchildren := children_of_kind (kind_of_get hnode)
      dsimp only
      rw [hchildren, walk_children, List.cons_append]
      intro c hc k rest
      exact ih (hi c ((child_of_kind (kind_of_get hnode)).mpr hc))

theorem mem_preorder_iff (hi : t.Bounded d i) : n ∈ t.preorder d i ↔ t.Spans i n := by
  have hmissing : ∀ {i}, t.get? i = none → ¬ t.Spans i n := by
    rintro i hnone ⟨hin, node, hnode⟩
    simp [hin.missing hnone] at hnode
  induction d generalizing i with
  | zero => simpa [preorder] using hmissing hi
  | succ d ih =>
    rw [preorder]
    cases hnode : t.get? i with
    | none => simpa using hmissing hnode
    | some node =>
      have hchild : ∀ {c}, c ∈ node.kind.children ↔ t.Child i c :=
        (child_of_kind (kind_of_get hnode)).symm
      simp only [List.mem_cons, List.mem_flatMap]
      constructor
      · rintro (rfl | ⟨c, hc, hn⟩)
        · exact ⟨.refl t n, node, hnode⟩
        · have hreach := (ih (hi c (hchild.mp hc))).mp hn
          exact ⟨(hchild.mp hc).reaches.trans hreach.1, hreach.2⟩
      · rintro ⟨hin, hpresent⟩
        rcases hin.eq_or_above with rfl | habove
        · exact Or.inl rfl
        · obtain ⟨c, hc, hcn⟩ := habove.first
          exact Or.inr ⟨c, hchild.mpr hc, (ih (hi c hc)).mpr ⟨hcn, hpresent⟩⟩

theorem AcyclicBelow.bounded_size (h : t.AcyclicBelow root) : t.Bounded (t.size + 1) root := by
  have hle := t.extent_le_size root
  exact h.bounded (by omega)

theorem AcyclicBelow.descendants_eq (h : t.AcyclicBelow root) :
    t.descendants root = t.preorder (t.size + 1) root := by
  have hwalk : t.walk (t.entries (t.size + 1) root + 0) [root] = t.preorder (t.size + 1) root ++ [] :=
    walk_eq h.bounded_size
  rwa [Nat.add_zero, List.append_nil] at hwalk

theorem AcyclicBelow.mem_descendants_iff (h : t.AcyclicBelow root) :
    n ∈ t.descendants root ↔ t.Spans root n := by
  rw [h.descendants_eq, mem_preorder_iff h.bounded_size]

theorem Acyclic.of_earlier
    (h : ∀ i ∈ List.range t.size, ∀ c ∈ t.children i, c < i ∨ t.get? c = none) : t.Acyclic := by
  intro i hloop
  have hbelow : ∀ {n}, t.Above i n → n < i ∨ t.get? n = none := by
    intro n hn
    induction hn with
    | single hc =>
      obtain ⟨node, hnode⟩ := get_of_child hc
      exact h i (List.mem_range.mpr (lt_size_of_get hnode)) _ hc
    | @tail p c _ hc ih =>
      obtain ⟨node, hnode⟩ := get_of_child hc
      have hlt := ih.resolve_right (by simp [hnode])
      rcases h p (List.mem_range.mpr (lt_size_of_get hnode)) _ hc with hcp | hmissing
      · exact Or.inl (Nat.lt_trans hcp hlt)
      · exact Or.inr hmissing
  obtain ⟨c, hc, -⟩ := hloop.first
  obtain ⟨node, hnode⟩ := get_of_child hc
  rcases hbelow hloop with hlt | hmissing
  · exact Nat.lt_irrefl i hlt
  · simp [hnode] at hmissing

end ScriptTyping.Tree
