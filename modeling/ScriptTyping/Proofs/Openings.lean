import ScriptTyping.Proofs.WiringRule

/-!
# What a node opens

One step of the walk that wires the nodes: the scopes of the children are made, and each child
awaits the walk in its own scope.
-/

namespace ScriptTyping

open Session Check

variable {ctx : Context} {root c i l r : NodeIndex} {base σ τ : Nat} {s s' s'' : Session}
  {ids : List SymbolId} {sc : NodeScopes}

/-- The walk has not come to the node yet, and is to go on there in the scope. -/
structure Awaits (ctx : Context) (s : Session) (i : NodeIndex) (σ : ScopeId) : Prop where
  scope_lt : σ < s.table.scopes.size
  fresh : ∀ {n}, ctx.tree.Reaches i n → s.nodes.get? n = some .unresolved
  undeclared : ∀ {n}, ctx.tree.Above i n → s.declared.get? n = none
  pending : Pending ctx.tree s i σ

theorem Awaits.mono (h : Awaits ctx s i σ) (hwf : s.table.WellFormed) (hgrows : s.Grows s')
    (hnodes : ∀ {n}, ctx.tree.Reaches i n → s'.nodes.get? n = s.nodes.get? n)
    (hdeclared : ∀ {n}, ctx.tree.Above i n → s'.declared.get? n = s.declared.get? n)
    (hsame : ∀ n, ctx.tree.Reaches i n → s'.truths.get? n = s.truths.get? n ∧
      s'.conjunctions.get? n = s.conjunctions.get? n) : Awaits ctx s' i σ := by
  refine ⟨Nat.lt_of_lt_of_le h.scope_lt hgrows.table.scopes_le,
    fun hn => (hnodes hn).trans (h.fresh hn), fun hn => (hdeclared hn).trans (h.undeclared hn), ?_⟩
  rcases h.pending with hfresh | ⟨ids, hguard⟩
  · refine Or.inl fun n hn => ?_
    exact ⟨(hsame n hn).1.trans (hfresh n hn).1, (hsame n hn).2.trans (hfresh n hn).2⟩
  · exact Or.inr ⟨ids, hguard.mono hgrows.table hwf h.scope_lt hsame⟩

theorem Awaits.below (h : Awaits ctx s i σ) (hkind : ∀ l r, ctx.tree.kind? i ≠ some (.conjunction l r))
    {n : NodeIndex} (hn : ctx.tree.Above i n) : s.Untouched n := by
  rcases h.pending with hfresh | ⟨ids, hguard⟩
  · exact hfresh n hn.reaches
  · cases hguard with
    | free _ _ _ hbelow => exact hbelow n hn
    | guard _ _ _ hbelow => exact hbelow n hn
    | both hk => exact absurd hk (hkind _ _)

/-- A node and its children, once the scopes of the children are made. -/
structure Opened (ctx : Context) (root : NodeIndex) (base : Nat) (i : NodeIndex) (kind : NodeKind)
    (σ : ScopeId) (s : Session) (w : Wires) (s' : Session) : Prop where
  grows : s.Grows s'
  nodes : s'.nodes = s.nodes
  frame : ∀ {n}, ¬ ctx.tree.Reaches i n → s'.truths.get? n = s.truths.get? n ∧
    s'.conjunctions.get? n = s.conjunctions.get? n ∧ s'.declared.get? n = s.declared.get? n
  accounted : Accounted ctx root base (s'.place i ⟨σ, w.inner⟩)
  children : w.children.map (·.1) = kind.children
  awaits : ∀ {c τ}, (c, τ) ∈ w.children → Awaits ctx (s'.place i ⟨σ, w.inner⟩) c τ
  rule : ∀ {s''}, (s'.place i ⟨σ, w.inner⟩).Grows s'' →
    s''.truths.get? i = s'.truths.get? i →
    (∀ c τ, (c, τ) ∈ w.children → s''.Placed c τ) → WiringRule ctx s'' i ⟨σ, w.inner⟩ kind

section Step

variable (hp : ctx.tree.Proper root) (hi : ctx.tree.Reaches root i)
  (h : Accounted ctx root base s) (ha : Awaits ctx s i σ)

include hp hi ha in
/-- What a child awaits, as far as it does not depend on the kind of the node. -/
theorem Awaits.child {inner : Option ScopeId} (hc : ctx.tree.Child i c)
    (hnodes : s'.nodes = s.nodes)
    (hdeclared : ∀ {n}, ctx.tree.Above c n → s'.declared.get? n = s.declared.get? n)
    (hwf : s'.table.WellFormed) (hτ : τ < s'.table.scopes.size)
    (hpending : Pending ctx.tree s' c τ) : Awaits ctx (s'.place i ⟨σ, inner⟩) c τ := by
  refine ⟨hτ, ?_, ?_, ?_⟩
  · intro n hn
    have hne : i ≠ n := by rintro rfl; exact hp.not_reaches_of_above hi hc.above hn
    rw [get?_place_of_ne hne, hnodes]
    exact ha.fresh (hc.reaches.trans hn)
  · intro n hn
    exact (hdeclared hn).trans (ha.undeclared (hc.above.trans hn))
  · rcases hpending with hfresh | ⟨ids, hguard⟩
    · exact Or.inl hfresh
    · exact Or.inr ⟨ids, hguard.mono (.refl _) hwf hτ fun n _ => ⟨rfl, rfl⟩⟩

include ha in
theorem Awaits.pending_child (hkind : ∀ l r, ctx.tree.kind? i ≠ some (.conjunction l r))
    (hc : ctx.tree.Child i c)
    (hsame : ∀ n, ctx.tree.Reaches c n → s'.truths.get? n = s.truths.get? n ∧
      s'.conjunctions.get? n = s.conjunctions.get? n) : Pending ctx.tree s' c τ := by
  refine Or.inl fun n hn => ?_
  have hu := ha.below hkind (hc.above.trans_reaches hn)
  exact ⟨(hsame n hn).1.trans hu.1, (hsame n hn).2.trans hu.2⟩

include hp hi h ha in
theorem conditional_opened {condition thenBranch : NodeIndex} {elseBranch : Option NodeIndex}
    (hk : ctx.tree.kind? i = some (.conditional condition thenBranch elseBranch)) :
    (childWires ctx i (.conditional condition thenBranch elseBranch) σ).After s
      (Opened ctx root base i (.conditional condition thenBranch elseBranch) σ s) := by
  have hchild : ∀ {c}, c ∈ condition :: thenBranch :: elseBranch.toList → ctx.tree.Child i c :=
    (Tree.child_of_kind hk).mpr
  have hcond : ctx.tree.Child i condition := hchild (by simp)
  have hnodup := hp.one_slot hi
  rw [Tree.children_of_kind hk] at hnodup
  simp only [NodeKind.children, List.nodup_cons, List.mem_cons, not_or] at hnodup
  have hunresolved := ha.fresh (.refl _ i)
  unfold childWires
  simp only [after_bind, after_pure]
  refine (truths_spec hp (hi.tail hcond) h ha.scope_lt
    (ha.pending_child (by simp [hk]) hcond fun _ _ => ⟨rfl, rfl⟩)).mono ?_
  rintro ids s1 ⟨hlearn, hacc1, hguard⟩
  have hσ1 := Nat.lt_of_lt_of_le ha.scope_lt hlearn.grows.table.scopes_le
  refine (narrowedScope_spec hacc1 hσ1 hguard).mono ?_
  rintro τ s2 ⟨table, rfl, hext, hacc2, hnarrows⟩
  have hgrows : s.Grows { s1 with table := table } :=
    hlearn.grows.trans (Learns.of_table (t := ctx.tree) (c := i) hext).grows
  have hσ2 := Nat.lt_of_lt_of_le hσ1 hext.scopes_le
  -- The condition is known by now; the branches are apart from it.
  have hbranch : ∀ {c τ'}, ctx.tree.Child i c → condition ≠ c →
      Pending ctx.tree { s1 with table := table } c τ' := by
    intro c τ' hc hne
    refine ha.pending_child (by simp [hk]) hc fun n hn => ?_
    exact hlearn.frame fun hn' => hne (hp.siblings_apart hi hcond hc hn' hn)
  obtain ⟨gs, hgs, hids⟩ := hguard.conjuncts
  refine ⟨hgrows, hlearn.nodes, ?_, hacc2.place (by rw [hlearn.nodes]; exact hunresolved), ?_, ?_, ?_⟩
  · intro n hn
    have hframe := hlearn.frame fun hn' => hn (hcond.reaches.trans hn')
    exact ⟨hframe.1, hframe.2, by rw [hlearn.declared]⟩
  · simp [NodeKind.children, Function.comp_def]
  · intro c τ' hc
    simp only [List.mem_cons, Prod.mk.injEq, List.mem_map] at hc
    rcases hc with ⟨rfl, rfl⟩ | ⟨rfl, rfl⟩ | ⟨e, he, rfl, rfl⟩
    · refine ha.child hp hi hcond hlearn.nodes (fun _ => by rw [hlearn.declared]) hacc2.wf hσ2 ?_
      exact Or.inr ⟨ids, hguard.mono hext hacc1.wf hσ1 fun n _ => ⟨rfl, rfl⟩⟩
    · exact ha.child hp hi (hchild (by simp)) hlearn.nodes (fun _ => by rw [hlearn.declared])
        hacc2.wf (hnarrows.scope_lt hσ2) (hbranch (hchild (by simp)) hnodup.1.1)
    · have hne : condition ≠ e := by rintro rfl; exact hnodup.1.2 he
      exact ha.child hp hi (hchild (by simp [he])) hlearn.nodes (fun _ => by rw [hlearn.declared])
        hacc2.wf hσ2 (hbranch (hchild (by simp [he])) hne)
  · intro s'' hgrows' _ hplaced
    have htable : Session.Grows { s1 with table := table } s'' := (place_grows
      (by rw [hlearn.nodes]; exact hunresolved)).trans hgrows'
    refine ⟨gs, ids, τ, hgs, ?_, hnarrows.mono htable.table, rfl, hplaced _ _ (by simp),
      hplaced _ _ (by simp), fun e he => hplaced _ _ (by simp [Option.mem_def.mp he])⟩
    exact hids.mono ((Learns.of_table (t := ctx.tree) (c := i) hext).grows.trans htable)

include hp hi h ha in
theorem conjunction_opened (hk : ctx.tree.kind? i = some (.conjunction l r)) :
    (childWires ctx i (.conjunction l r) σ).After s
      (Opened ctx root base i (.conjunction l r) σ s) := by
  have hl : ctx.tree.Child i l := (Tree.child_of_kind hk).mpr (by simp [NodeKind.children])
  have hr : ctx.tree.Child i r := (Tree.child_of_kind hk).mpr (by simp [NodeKind.children])
  have hunresolved := ha.fresh (.refl _ i)
  unfold childWires
  simp only [after_bind, after_pure, after_get]
  refine (truths_spec hp hi h ha.scope_lt ha.pending).mono ?_
  rintro ids s1 ⟨hlearn, hacc, hguard⟩
  have hσ := Nat.lt_of_lt_of_le ha.scope_lt hlearn.grows.table.scopes_le
  have hunresolved1 : s1.nodes.get? i = some .unresolved := hlearn.nodes ▸ hunresolved
  cases hguard with
  | free hkind => exact absurd hk (hkind l r)
  | guard hname => simp [guardName_of_conjunction hk] at hname
  | @both _ l' r' _ τ left right hk' hgl hnarrows hconj hgr htruth =>
    rw [hk] at hk'
    cases hk'
    rw [hconj, Option.getD_some]
    obtain ⟨gs, hgs, hleft⟩ := hgl.conjuncts
    refine ⟨hlearn.grows, hlearn.nodes, ?_, hacc.place hunresolved1, rfl, ?_, ?_⟩
    · intro n hn
      exact ⟨(hlearn.frame hn).1, (hlearn.frame hn).2, by rw [hlearn.declared]⟩
    · intro c τ' hc
      simp only [List.mem_cons, Prod.mk.injEq, List.not_mem_nil, or_false] at hc
      rcases hc with ⟨rfl, rfl⟩ | ⟨rfl, rfl⟩
      · exact ha.child hp hi hl hlearn.nodes (fun _ => by rw [hlearn.declared]) hacc.wf hσ
          (Or.inr ⟨left, hgl⟩)
      · exact ha.child hp hi hr hlearn.nodes (fun _ => by rw [hlearn.declared]) hacc.wf
          (hnarrows.scope_lt hσ) (Or.inr ⟨right, hgr⟩)
    · intro s'' hgrows _ hplaced
      have hgrows' := (place_grows hunresolved1).trans hgrows
      exact ⟨gs, left, τ, hgs, hleft.mono hgrows', hnarrows.mono hgrows'.table, rfl,
        hplaced _ _ (by simp), hplaced _ _ (by simp)⟩

include hp hi h ha in
theorem lambda_opened {params : List LambdaParam} {body : NodeIndex}
    (hk : ctx.tree.kind? i = some (.lambda params body)) :
    (childWires ctx i (.lambda params body) σ).After s
      (Opened ctx root base i (.lambda params body) σ s) := by
  have hchild : ∀ {c}, c ∈ params.filterMap (·.ascription) ++ [body] → ctx.tree.Child i c :=
    (Tree.child_of_kind hk).mpr
  have hunresolved := ha.fresh (.refl _ i)
  unfold childWires
  simp only [after_bind, after_pure, addScope, after_modifyGet]
  refine (addParameters_spec h.wf).mono ?_
  rintro ids s1 ⟨table, rfl, hadds, hids⟩
  have hacc := h.openLambda hunresolved hi ha.scope_lt hadds
  have hext := hadds.extends_.trans (SymbolTable.extends_addScope table (some σ) ids)
  have hgrows : s.Grows { s with table := (table.addScope (some σ) ids).2 } :=
    (Learns.of_table (t := ctx.tree) (c := i) hext).grows
  have hawaits : ∀ {c τ}, c ∈ params.filterMap (·.ascription) ++ [body] →
      τ < (table.addScope (some σ) ids).2.scopes.size →
      Awaits ctx (Session.place { s with table := (table.addScope (some σ) ids).2 } i
        ⟨σ, some table.scopes.size⟩) c τ := by
    intro c τ hc hτ
    exact ha.child hp hi (hchild hc) rfl (fun _ => rfl) hacc.wf hτ
      (ha.pending_child (by simp [hk]) (hchild hc) fun _ _ => ⟨rfl, rfl⟩)
  refine ⟨hgrows, rfl, fun _ => ⟨rfl, rfl, rfl⟩, hacc, ?_, ?_, ?_⟩
  · simp [NodeKind.children, Function.comp_def]
  · intro c τ hc
    rcases List.mem_append.mp hc with hc | hc
    · obtain ⟨a, ha', heq⟩ := List.mem_map.mp hc
      cases heq
      exact hawaits (List.mem_append_left _ ha') (Nat.lt_of_lt_of_le ha.scope_lt hext.scopes_le)
    · cases List.mem_singleton.mp hc
      exact hawaits (by simp) (SymbolTable.scope_lt (SymbolTable.scope_addScope table (some σ) ids))
  · intro s'' hgrows' _ hplaced
    refine ⟨table.scopes.size, ids, rfl,
      hgrows'.table.scope (SymbolTable.scope_addScope table (some σ) ids), ?_, ?_, ?_⟩
    · rw [← hids]
      apply List.map_congr_left
      intro id hid
      obtain ⟨name, k, hsym⟩ := hadds.listed id hid
      rw [hsym]
      exact hgrows'.table.symbol hsym
    · intro a ha'
      exact hplaced a σ (List.mem_append_left _ (List.mem_map.mpr ⟨a, ha', rfl⟩))
    · exact hplaced _ _ (by simp [SymbolTable.addScope])

include hp hi h ha in
theorem block_opened {statements : List NodeIndex}
    (hk : ctx.tree.kind? i = some (.block statements)) :
    (childWires ctx i (.block statements) σ).After s
      (Opened ctx root base i (.block statements) σ s) := by
  have hchild : ∀ {c}, c ∈ statements → ctx.tree.Child i c := (Tree.child_of_kind hk).mpr
  have hunresolved := ha.fresh (.refl _ i)
  have hnodup := hp.one_slot hi
  rw [Tree.children_of_kind hk] at hnodup
  unfold childWires
  simp only [after_bind, after_pure, addScope, after_modifyGet]
  refine (declareStatements_spec h (fun d hd => hi.tail (hchild hd)) hnodup
    fun d hd => ha.undeclared (hchild hd).above).mono ?_
  rintro ids s1 ⟨table, declared, rfl, hgrows, hscopes, hacc1, hids, hframe⟩
  have hσ : σ < table.scopes.size := hscopes ▸ ha.scope_lt
  have hsource : ∀ id ∈ ids, ∃ name d c, table.symbol? id = some ⟨name, .source d c⟩ := by
    intro id hid
    have hmem : some id ∈ ids.map some := List.mem_map_of_mem hid
    rw [← hids] at hmem
    obtain ⟨d, -, hd⟩ := List.mem_map.mp hmem
    obtain ⟨-, -, name, c, -, -, -, hsym⟩ := hacc1.declared hd
    exact ⟨name, d, c, hsym⟩
  have hlt : ∀ id ∈ ids, id < table.symbols.size := by
    intro id hid
    obtain ⟨name, d, c, hsym⟩ := hsource id hid
    exact SymbolTable.symbol_lt hsym
  have horiginals : ∀ {id : Nat} {name o g}, id ∈ ids →
      table.symbol? id = some ⟨name, .narrowed o g⟩ → table.Sees σ o ∨ o ∈ ids := by
    intro id name o g hid hsym
    obtain ⟨name', d, c, hsym'⟩ := hsource id hid
    rw [hsym] at hsym'
    cases hsym'
  have hacc2 := hacc1.addScope hσ hlt horiginals
  have hext := SymbolTable.extends_addScope table (some σ) ids
  have hgrows2 : s.Grows { s with table := (table.addScope (some σ) ids).2, declared := declared } :=
    hgrows.trans (Learns.of_table (t := ctx.tree) (c := i) hext).grows
  refine ⟨hgrows2, rfl, ?_, hacc2.place hunresolved, ?_, ?_, ?_⟩
  · intro n hn
    refine ⟨rfl, rfl, hframe n fun hst => hn (hchild hst).reaches⟩
  · simp [NodeKind.children, Function.comp_def]
  · intro c τ hc
    obtain ⟨st, hst, heq⟩ := List.mem_map.mp hc
    cases heq
    refine ha.child hp hi (hchild hst) rfl ?_ hacc2.wf
      (SymbolTable.scope_lt (SymbolTable.scope_addScope table (some σ) ids))
      (ha.pending_child (by simp [hk]) (hchild hst) fun _ _ => ⟨rfl, rfl⟩)
    intro n hn
    refine hframe n fun hn' => ?_
    -- A statement is not below another one.
    have heq := hp.eq_of_siblings hi (hchild hst) (hchild hn') hn.reaches
    exact hp.acyclic (hi.tail (hchild hst)) (heq ▸ hn)
  · intro s'' hgrows' _ hplaced
    refine ⟨table.scopes.size, ids, rfl,
      hgrows'.table.scope (SymbolTable.scope_addScope table (some σ) ids),
      map_declared_congr hids fun hd => hgrows'.declared hd, ?_⟩
    intro st hst
    exact hplaced st _ (List.mem_map.mpr ⟨st, hst, rfl⟩)

include hp hi h ha in
theorem plain_opened {kind : NodeKind} (hk : ctx.tree.kind? i = some kind)
    (hkind : ∀ l r, kind ≠ .conjunction l r)
    (hrule : ∀ s', s.Grows s' → (∀ c ∈ kind.children, s'.Placed c σ) →
      s'.truths.get? i = s.truths.get? i → WiringRule ctx s' i ⟨σ, none⟩ kind) :
    Opened ctx root base i kind σ s ⟨none, kind.children.map (·, σ)⟩ s := by
  have hchild : ∀ {c}, c ∈ kind.children → ctx.tree.Child i c := (Tree.child_of_kind hk).mpr
  have hunresolved := ha.fresh (.refl _ i)
  have hkind' : ∀ l r, ctx.tree.kind? i ≠ some (.conjunction l r) := by
    intro l r h'
    rw [hk] at h'
    cases h'
    exact hkind l r rfl
  refine ⟨.refl s, rfl, fun _ => ⟨rfl, rfl, rfl⟩, h.place hunresolved, ?_, ?_, ?_⟩
  · simp [Function.comp_def]
  · intro c τ hc
    obtain ⟨c', hc', heq⟩ := List.mem_map.mp hc
    cases heq
    exact ha.child hp hi (hchild hc') rfl (fun _ => rfl) h.wf ha.scope_lt
      (ha.pending_child hkind' (hchild hc') fun _ _ => ⟨rfl, rfl⟩)
  · intro s'' hgrows htruths hplaced
    exact hrule s'' ((place_grows hunresolved).trans hgrows)
      (fun c hc => hplaced c σ (List.mem_map.mpr ⟨c, hc, rfl⟩)) htruths

include hp hi h ha in
theorem declaration_opened {name : String} {isConst : Bool} {ascription : Option NodeIndex}
    {initializer : NodeIndex}
    (hk : ctx.tree.kind? i = some (.declaration name isConst ascription initializer)) :
    (childWires ctx i (.declaration name isConst ascription initializer) σ).After s
      (Opened ctx root base i (.declaration name isConst ascription initializer) σ s) := by
  have hrule : ∀ s' : Session, (∃ id, s'.declared.get? i = some id) →
      (∀ c ∈ ascription.toList ++ [initializer], s'.Placed c σ) →
      WiringRule ctx s' i ⟨σ, none⟩ (.declaration name isConst ascription initializer) := by
    intro s' hid hplaced
    exact ⟨rfl, hid, fun a ha' => hplaced a (by simp [Option.mem_def.mp ha']),
      hplaced _ (by simp)⟩
  unfold childWires
  simp only [after_bind, after_get]
  split
  · rename_i hnot
    have hnone : s.declared.get? i = none := by
      simpa [OrderedMap.contains] using hnot
    have hframe : ∀ {n}, i ≠ n → (s.declared.insert i s.table.symbols.size).get? n =
        s.declared.get? n := fun hne => OrderedMap.get?_insert_of_ne _ hne _
    simp only [after_bind, after_pure, declare, addSymbol, after_modifyGet, after_modify]
    have hgrows := grows_declare name isConst hnone
    have ha1 := ha.mono h.wf hgrows (fun _ => rfl)
      (fun {n} hn => hframe (by rintro rfl; exact hp.acyclic hi hn)) (fun _ _ => ⟨rfl, rfl⟩)
    have hopened := plain_opened hp hi (h.declare hi hk hnone) ha1 hk (by simp) (by
      intro s' hs' hplaced _
      exact hrule s' ⟨_, hs'.declared (OrderedMap.get?_insert_self _ _ _)⟩ hplaced)
    refine ⟨hgrows, rfl, ?_, hopened.accounted, hopened.children, hopened.awaits, hopened.rule⟩
    intro n hn
    exact ⟨rfl, rfl, hframe (by rintro rfl; exact hn (.refl _ i))⟩
  · rename_i hdeclared
    obtain ⟨id, hid⟩ : ∃ id, s.declared.get? i = some id :=
      Option.isSome_iff_exists.mp (show s.declared.contains i = true by simpa using hdeclared)
    exact plain_opened hp hi h ha hk (by simp) fun s' hs' hplaced _ =>
      hrule s' ⟨id, hs'.declared hid⟩ hplaced

include hp hi h ha in
theorem typeTest_opened {operand target : NodeIndex}
    (hk : ctx.tree.kind? i = some (.typeTest operand target)) :
    (childWires ctx i (.typeTest operand target) σ).After s
      (Opened ctx root base i (.typeTest operand target) σ s) := by
  refine plain_opened hp hi h ha hk (by simp) ?_
  intro s' hs' hplaced htruths
  refine ⟨rfl, hplaced _ (by simp [NodeKind.children]), hplaced _ (by simp [NodeKind.children]), ?_⟩
  intro name ids hname hids
  rw [htruths] at hids
  rcases ha.pending with hfresh | ⟨ids', hguard⟩
  · simp [(hfresh i (.refl _ i)).1] at hids
  · have heq := hguard.truth_of_some hids
    cases hguard with
    | free _ hnone => simp [hnone] at hname
    | guard hname' _ hnarrow _ =>
      rw [hname] at hname'
      cases hname'
      rw [heq]
      exact hnarrow.mono hs'.table h.wf ha.scope_lt
    | both hk' => simp [hk] at hk'

include hp hi h ha in
theorem childWires_spec {kind : NodeKind} (hk : ctx.tree.kind? i = some kind) :
    (childWires ctx i kind σ).After s (Opened ctx root base i kind σ s) := by
  cases kind with
  | conditional condition thenBranch elseBranch => exact conditional_opened hp hi h ha hk
  | conjunction left right => exact conjunction_opened hp hi h ha hk
  | lambda params body => exact lambda_opened hp hi h ha hk
  | block statements => exact block_opened hp hi h ha hk
  | declaration name isConst ascription initializer => exact declaration_opened hp hi h ha hk
  | typeTest operand target => exact typeTest_opened hp hi h ha hk
  | _ => exact plain_opened hp hi h ha hk (by simp) fun s' _ hplaced _ => ⟨rfl, hplaced⟩

end Step

end ScriptTyping
