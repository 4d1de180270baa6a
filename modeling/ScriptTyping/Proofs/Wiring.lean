import ScriptTyping.Proofs.Openings

/-!
# Wiring

Each node is wired once, in one scope, and the walk from a node stays in its subtree.
-/

namespace ScriptTyping

open Session Check

variable {ctx : Context} {root c i l r : NodeIndex} {base σ τ : Nat} {s s' s'' : Session}
  {ids : List SymbolId} {sc : NodeScopes}

/-- Nothing that the walk writes has changed at the node. -/
structure Session.SameAt (s s' : Session) (n : NodeIndex) : Prop where
  node : s'.nodes.get? n = s.nodes.get? n
  truths : s'.truths.get? n = s.truths.get? n
  conjunctions : s'.conjunctions.get? n = s.conjunctions.get? n
  declared : s'.declared.get? n = s.declared.get? n

theorem Session.SameAt.trans {n : NodeIndex} (h : s.SameAt s' n) (h' : s'.SameAt s'' n) :
    s.SameAt s'' n :=
  ⟨h'.node.trans h.node, h'.truths.trans h.truths, h'.conjunctions.trans h.conjunctions,
    h'.declared.trans h.declared⟩

/-- The node is wired by its rule. -/
def WiredAt (ctx : Context) (s : Session) (n : NodeIndex) : Prop :=
  ∃ sc kind, s.nodes.get? n = some (.wired sc) ∧ sc.scope < s.table.scopes.size ∧
    ctx.tree.kind? n = some kind ∧ WiringRule ctx s n sc kind

theorem WiredAt.mono {n : NodeIndex} (h : WiredAt ctx s n) (hwf : s.table.WellFormed)
    (hs : s.Grows s') (hsame : s.SameAt s' n) : WiredAt ctx s' n := by
  obtain ⟨sc, kind, hwired, hlt, hk, hrule⟩ := h
  exact ⟨sc, kind, hsame.node.trans hwired, Nat.lt_of_lt_of_le hlt hs.table.scopes_le, hk,
    hrule.mono hs hwf hlt hsame.truths⟩

/-- The walk from `i` is done: all of its subtree is wired by the rules, and nothing else is. -/
structure Walked (ctx : Context) (i : NodeIndex) (σ : ScopeId) (s s' : Session) : Prop where
  grows : s.Grows s'
  frame : ∀ {n}, ¬ ctx.tree.Reaches i n → s.SameAt s' n
  placed : s'.Placed i σ
  rules : ∀ {n}, ctx.tree.Reaches i n → WiredAt ctx s' n

/-- The children of a node are walked one after the other; none is in the way of another. -/
theorem walkChildren_spec {visit : NodeIndex → ScopeId → Check Unit} {p : NodeIndex}
    (hp : ctx.tree.Proper root) (hroot : ctx.tree.Reaches root p)
    (hvisit : ∀ {c τ s}, ctx.tree.Child p c → Accounted ctx root base s → Awaits ctx s c τ →
      (visit c τ).After s fun _ s' => Walked ctx c τ s s' ∧ Accounted ctx root base s')
    {wires : List (NodeIndex × ScopeId)} (hchild : ∀ w ∈ wires, ctx.tree.Child p w.1)
    (hnodup : (wires.map (·.1)).Nodup) (h : Accounted ctx root base s)
    (ha : ∀ w ∈ wires, Awaits ctx s w.1 w.2) :
    (wires.forM fun w => visit w.1 w.2).After s fun _ s' => Accounted ctx root base s' ∧
      s.Grows s' ∧ (∀ {n}, (∀ w ∈ wires, ¬ ctx.tree.Reaches w.1 n) → s.SameAt s' n) ∧
      ∀ w ∈ wires, s'.Placed w.1 w.2 ∧ ∀ {n}, ctx.tree.Reaches w.1 n → WiredAt ctx s' n := by
  induction wires generalizing s with
  | nil => exact ⟨h, .refl s, fun _ => ⟨rfl, rfl, rfl, rfl⟩, by simp⟩
  | cons w rest ih =>
    simp only [List.map_cons, List.nodup_cons] at hnodup
    rw [after_forM_cons]
    have hw := hchild w (by simp)
    have hapart : ∀ v ∈ rest, ∀ {n}, ctx.tree.Reaches v.1 n → ¬ ctx.tree.Reaches w.1 n := by
      intro v hv n hn hn'
      have heq := hp.siblings_apart hroot hw (hchild v (by simp [hv])) hn' hn
      exact hnodup.1 (heq ▸ List.mem_map_of_mem hv)
    refine (hvisit hw h (ha w (by simp))).mono ?_
    rintro - s1 ⟨hwalked, hacc⟩
    refine (ih (fun v hv => hchild v (by simp [hv])) hnodup.2 hacc fun v hv => ?_).mono ?_
    · have hframe : ∀ {n}, ctx.tree.Reaches v.1 n → s.SameAt s1 n := fun hn =>
        hwalked.frame (hapart v hv hn)
      exact (ha v (by simp [hv])).mono h.wf hwalked.grows (fun hn => (hframe hn).node)
        (fun hn => (hframe hn.reaches).declared)
        fun n hn => ⟨(hframe hn).truths, (hframe hn).conjunctions⟩
    · rintro - s' ⟨hacc', hgrows, hframe, hrest⟩
      refine ⟨hacc', hwalked.grows.trans hgrows, ?_, ?_⟩
      · intro n hn
        exact (hwalked.frame (hn w (by simp))).trans (hframe fun v hv => hn v (by simp [hv]))
      · intro v hv
        rcases List.mem_cons.mp hv with rfl | hv
        · refine ⟨hwalked.placed.mono hgrows, fun hn => ?_⟩
          exact (hwalked.rules hn).mono hacc.wf hgrows (hframe fun u hu hn' => hapart u hu hn' hn)
        · exact hrest v hv

theorem wireWithin_spec (hp : ctx.tree.Proper root) {fuel : Nat} (hi : ctx.tree.Reaches root i)
    (hfuel : ctx.tree.extent i ≤ fuel) (h : Accounted ctx root base s) (ha : Awaits ctx s i σ) :
    (wireWithin ctx fuel i σ).After s fun _ s' => Walked ctx i σ s s' ∧
      Accounted ctx root base s' := by
  induction fuel generalizing i σ s with
  | zero => exact absurd (hp.extent_pos hi) (by omega)
  | succ fuel ih =>
    obtain ⟨node, hnode⟩ := hp.present hi
    have hk := Tree.kind_of_get hnode
    unfold wireWithin
    simp only [hnode, after_bind]
    refine (childWires_spec hp hi h ha hk).mono ?_
    rintro w s1 hopened
    have hunresolved : s1.nodes.get? i = some .unresolved := by
      rw [hopened.nodes]
      exact ha.fresh (.refl _ i)
    have hassign : ∀ Q : Bool → Session → Prop, Q true (s1.place i ⟨σ, w.inner⟩) →
        (assignScopes i ⟨σ, w.inner⟩).After s1 Q := by
      intro Q hQ
      simp only [assignScopes, after_modifyGet, NodeStates.assignScopes?, hunresolved]
      exact hQ
    apply hassign
    simp only [if_true]
    have hchildren : ∀ {c}, ctx.tree.Child i c ↔ ∃ τ, (c, τ) ∈ w.children := by
      intro c
      rw [Tree.child_of_kind hk, ← hopened.children]
      simp
    have hchild : ∀ v ∈ w.children, ctx.tree.Child i v.1 := fun v hv => hchildren.mpr ⟨v.2, hv⟩
    have hnodup : (w.children.map (·.1)).Nodup := by
      rw [hopened.children, ← Tree.children_of_kind hk]
      exact hp.one_slot hi
    refine (walkChildren_spec hp hi (fun {c τ s} hc hacc hawaits => ?_) hchild hnodup
      hopened.accounted fun v hv => hopened.awaits hv).mono ?_
    · have hlt := hp.extent_lt hi hc
      exact ih (hi.tail hc) (by omega) hacc hawaits
    · rintro - s' ⟨hacc, hgrows, hframe, hrest⟩
      have hself := hframe fun v hv => hp.not_reaches_of_above hi (hchild v hv).above
      have hwired : s'.nodes.get? i = some (.wired ⟨σ, w.inner⟩) :=
        hself.node.trans (get?_place_self hunresolved)
      have hgrows1 := hopened.grows.trans ((place_grows hunresolved).trans hgrows)
      have hlt := Nat.lt_of_lt_of_le ha.scope_lt hgrows1.table.scopes_le
      refine ⟨⟨hgrows1, ?_, ⟨w.inner, scopes_of_wired hwired⟩, ?_⟩, hacc⟩
      · intro n hn
        have hne : i ≠ n := by rintro rfl; exact hn (.refl _ i)
        have hlater := hframe fun v hv hn' => hn ((hchild v hv).reaches.trans hn')
        obtain ⟨h1, h2, h3⟩ := hopened.frame hn
        refine ⟨?_, hlater.truths.trans h1, hlater.conjunctions.trans h2, hlater.declared.trans h3⟩
        rw [hlater.node, get?_place_of_ne hne, hopened.nodes]
      · intro n hn
        rcases hn.eq_or_above with rfl | habove
        · exact ⟨_, _, hwired, hlt, hk, hopened.rule hgrows hself.truths fun c τ hc =>
            (hrest (c, τ) hc).1⟩
        · obtain ⟨c, hc, hcn⟩ := habove.first
          obtain ⟨τ, hτ⟩ := hchildren.mp hc
          exact (hrest (c, τ) hτ).2 hcn

/-- The first phase wires every node below the root by its rule, and nothing else. -/
theorem wire_spec {table : SymbolTable} (hp : ctx.tree.Proper root) (hwf : table.WellFormed)
    (hσ : σ < table.scopes.size) :
    (wire ctx root σ).After (.start ctx table) fun _ s =>
      Walked ctx root σ (.start ctx table) s ∧ Accounted ctx root table.symbols.size s := by
  have hle := ctx.tree.extent_le_size root
  refine wireWithin_spec hp (.refl _ _) (by omega) (.start hwf) ⟨hσ, ?_, fun _ => rfl, ?_⟩
  · intro n hn
    have hlt := hp.lt_size hn
    simp only [Session.start, NodeStates.initial, NodeStates.get?]
    rw [Array.getElem?_replicate, if_pos hlt]
  · exact Or.inl fun n _ => ⟨rfl, rfl⟩

end ScriptTyping
