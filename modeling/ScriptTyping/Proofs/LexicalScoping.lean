import ScriptTyping.Proofs.Wiring

/-!
# Lexical scoping

A node sees a symbol of the script exactly where the text says so: after the brace of a block that
declares it, in the body of the lambda that takes it, or where its guard holds.
-/

namespace ScriptTyping

open Session Check

variable {ctx : Context} {root c d g i l n p r : NodeIndex} {base σ τ id : Nat} {s : Session}
  {ids : List SymbolId} {sc : NodeScopes}

namespace Tree

variable {t : Tree} {origin : Origin}

/-- The nodes that see the symbols of an origin. -/
def VisibleAt (t : Tree) (root : NodeIndex) : Origin → NodeIndex → Prop
  | .source d _, n => ∃ b statements, t.Reaches root b ∧ t.kind? b = some (.block statements) ∧
      d ∈ statements ∧ t.Above b n
  | .parameter l _, n => ∃ params body, t.Reaches root l ∧
      t.kind? l = some (.lambda params body) ∧ t.Reaches body n
  | .narrowed _ g, n =>
    (∃ i condition thenBranch elseBranch, t.Reaches root i ∧
      t.kind? i = some (.conditional condition thenBranch elseBranch) ∧ t.Conjunct condition g ∧
      t.Reaches thenBranch n) ∨
    ∃ i left right, t.Reaches root i ∧ t.kind? i = some (.conjunction left right) ∧
      t.Conjunct left g ∧ t.Reaches right n
  | .host .., _ => False

/-- The step from `p` to its child `c` comes to where the symbols of an origin are seen. -/
def Enters (t : Tree) (p c : NodeIndex) : Origin → Prop
  | .source d _ => ∃ statements, t.kind? p = some (.block statements) ∧ d ∈ statements
  | .parameter l _ => p = l ∧ ∃ params, t.kind? p = some (.lambda params c)
  | .narrowed _ g =>
    (∃ condition elseBranch, t.kind? p = some (.conditional condition c elseBranch) ∧
      t.Conjunct condition g) ∨
    ∃ left, t.kind? p = some (.conjunction left c) ∧ t.Conjunct left g
  | .host .. => False

theorem visibleAt_iff : t.VisibleAt root origin n ↔
    ∃ p c, t.Reaches root p ∧ t.Child p c ∧ t.Enters p c origin ∧ t.Reaches c n := by
  cases origin with
  | source d isConst =>
    constructor
    · rintro ⟨b, statements, hb, hk, hd, habove⟩
      obtain ⟨c, hc, hcn⟩ := habove.first
      exact ⟨b, c, hb, hc, ⟨statements, hk, hd⟩, hcn⟩
    · rintro ⟨b, c, hb, hc, ⟨statements, hk, hd⟩, hcn⟩
      exact ⟨b, statements, hb, hk, hd, hc.above.trans_reaches hcn⟩
  | parameter l k =>
    constructor
    · rintro ⟨params, body, hl, hk, hn⟩
      exact ⟨l, body, hl, (child_of_kind hk).mpr (by simp [NodeKind.children]), ⟨rfl, params, hk⟩, hn⟩
    · rintro ⟨p, c, hp, -, ⟨rfl, params, hk⟩, hcn⟩
      exact ⟨params, c, hp, hk, hcn⟩
  | host ty isConst => simp [VisibleAt, Enters]
  | narrowed o g =>
    constructor
    · rintro (⟨i, condition, thenBranch, elseBranch, hi, hk, hg, hn⟩ | ⟨i, left, right, hi, hk, hg, hn⟩)
      · exact ⟨i, thenBranch, hi, (child_of_kind hk).mpr (by simp [NodeKind.children]),
          Or.inl ⟨condition, elseBranch, hk, hg⟩, hn⟩
      · exact ⟨i, right, hi, (child_of_kind hk).mpr (by simp [NodeKind.children]),
          Or.inr ⟨left, hk, hg⟩, hn⟩
    · rintro ⟨p, c, hp, -, ⟨condition, elseBranch, hk, hg⟩ | ⟨left, hk, hg⟩, hcn⟩
      · exact Or.inl ⟨p, condition, c, elseBranch, hp, hk, hg, hcn⟩
      · exact Or.inr ⟨p, left, c, hp, hk, hg, hcn⟩

theorem Proper.not_visibleAt_root (h : t.Proper root) : ¬ t.VisibleAt root origin root := by
  rw [visibleAt_iff]
  rintro ⟨p, c, hp, hc, -, hcr⟩
  exact h.not_reaches_of_above (.refl t root) (hp.trans_above hc.above) hcr

theorem Proper.visibleAt_child (h : t.Proper root) (hp : t.Reaches root p) (hc : t.Child p c) :
    t.VisibleAt root origin c ↔ t.VisibleAt root origin p ∨ t.Enters p c origin := by
  rw [visibleAt_iff, visibleAt_iff]
  constructor
  · rintro ⟨q, d, hq, hd, henters, hdc⟩
    rcases hdc.eq_or_above with rfl | habove
    · rw [h.one_parent hp hq hc hd]
      exact Or.inr henters
    · exact Or.inl ⟨q, d, hq, hd, henters, h.reaches_parent (hq.tail hd) hp hc habove⟩
  · rintro (⟨q, d, hq, hd, henters, hdp⟩ | henters)
    · exact ⟨q, d, hq, hd, henters, hdp.tail hc⟩
    · exact ⟨p, c, hp, hc, henters, .refl t c⟩

end Tree

/-! ## What a step down adds to what a node sees -/

theorem Session.Truths.mem_iff {gs : List NodeIndex} {name : String} {origin : Origin}
    (h : Truths ctx.tree s gs ids) (hacc : Accounted ctx root base s) (hid : base ≤ id)
    (hsym : s.table.symbol? id = some ⟨name, origin⟩) :
    id ∈ ids ↔ ∃ o, ∃ g ∈ gs, origin = .narrowed o g := by
  rw [h.all, List.mem_flatMap]
  constructor
  · rintro ⟨g, hg, hmem⟩
    unfold truthOf at hmem
    split at hmem
    · simp at hmem
    · rename_i name' hname
      obtain ⟨known, hknown⟩ := h.known g hg (by simp [hname])
      rw [hknown, Option.getD_some] at hmem
      obtain ⟨o, hsym'⟩ := (hacc.truths hknown).2 name' hname id hmem
      rw [hsym] at hsym'
      cases hsym'
      exact ⟨o, g, hg, rfl⟩
  · rintro ⟨o, g, hg, rfl⟩
    obtain ⟨hname, htruth, -⟩ := hacc.narrowed hid hsym
    exact ⟨g, hg, by simp [truthOf, hname, htruth]⟩

theorem Session.Placed.unique (h : s.Placed c σ) (h' : s.Placed c τ) : σ = τ := by
  obtain ⟨inner, hc⟩ := h
  obtain ⟨inner', hc'⟩ := h'
  rw [hc] at hc'
  cases hc'
  rfl

section Edge

variable {name : String} {origin : Origin} (hp : ctx.tree.Proper root)
  (hi : ctx.tree.Reaches root i) (hacc : Accounted ctx root base s) (hid : base ≤ id)
  (hsym : s.table.symbol? id = some ⟨name, origin⟩)

include hp hi hacc hid hsym in
theorem sees_child_conditional {condition thenBranch : NodeIndex} {elseBranch : Option NodeIndex}
    (hk : ctx.tree.kind? i = some (.conditional condition thenBranch elseBranch))
    (hrule : WiringRule ctx s i sc (.conditional condition thenBranch elseBranch))
    (hc : ctx.tree.Child i c) (hτ : s.Placed c τ) :
    s.table.Sees τ id ↔ s.table.Sees sc.scope id ∨ ctx.tree.Enters i c origin := by
  obtain ⟨gs, ids, τ', hgs, hids, hnarrows, -, hcond, hthen, helse⟩ := hrule
  have hnodup := hp.one_slot hi
  rw [Tree.children_of_kind hk] at hnodup
  simp only [NodeKind.children, List.nodup_cons, List.mem_cons, not_or] at hnodup
  have henters : ctx.tree.Enters i c origin ↔
      c = thenBranch ∧ ∃ o, ∃ g ∈ gs, origin = .narrowed o g := by
    cases origin with
    | narrowed o g =>
      simp only [Tree.Enters, hk, Option.some.injEq, NodeKind.conditional.injEq, reduceCtorEq,
        false_and, exists_false, or_false, Origin.narrowed.injEq]
      constructor
      · rintro ⟨condition', elseBranch', ⟨rfl, rfl, rfl⟩, hs, hhs, hg⟩
        rw [← hgs.unique hhs] at hg
        exact ⟨rfl, o, g, hg, rfl, rfl⟩
      · rintro ⟨rfl, o', g', hg, rfl, rfl⟩
        exact ⟨condition, elseBranch, ⟨rfl, rfl, rfl⟩, gs, hgs, hg⟩
    | _ => simp [Tree.Enters, hk]
  rw [henters]
  rw [Tree.child_of_kind hk] at hc
  simp only [NodeKind.children, List.mem_cons] at hc
  rcases hc with rfl | rfl | hc
  · rw [hτ.unique hcond]
    simp [hnodup.1.1]
  · rw [hτ.unique hthen, hnarrows.sees_iff hacc.wf, hids.mem_iff hacc hid hsym]
    simp
  · have hne : c ≠ thenBranch := by rintro rfl; exact hnodup.2.1 hc
    rw [hτ.unique (helse c (by simpa using hc))]
    simp [hne]

include hp hi hacc hid hsym in
theorem sees_child_conjunction (hk : ctx.tree.kind? i = some (.conjunction l r))
    (hrule : WiringRule ctx s i sc (.conjunction l r))
    (hc : ctx.tree.Child i c) (hτ : s.Placed c τ) :
    s.table.Sees τ id ↔ s.table.Sees sc.scope id ∨ ctx.tree.Enters i c origin := by
  obtain ⟨gs, ids, τ', hgs, hids, hnarrows, -, hl, hr⟩ := hrule
  have hnodup := hp.one_slot hi
  rw [Tree.children_of_kind hk] at hnodup
  have hlr : l ≠ r := by simpa [NodeKind.children] using hnodup
  have henters : ctx.tree.Enters i c origin ↔ c = r ∧ ∃ o, ∃ g ∈ gs, origin = .narrowed o g := by
    cases origin with
    | narrowed o g =>
      simp only [Tree.Enters, hk, Option.some.injEq, NodeKind.conjunction.injEq, reduceCtorEq,
        false_and, exists_false, false_or, Origin.narrowed.injEq]
      constructor
      · rintro ⟨left, ⟨rfl, rfl⟩, hs, hhs, hg⟩
        rw [← hgs.unique hhs] at hg
        exact ⟨rfl, o, g, hg, rfl, rfl⟩
      · rintro ⟨rfl, o', g', hg, rfl, rfl⟩
        exact ⟨l, ⟨rfl, rfl⟩, gs, hgs, hg⟩
    | _ => simp [Tree.Enters, hk]
  rw [henters]
  rw [Tree.child_of_kind hk] at hc
  simp only [NodeKind.children, List.mem_cons, List.not_mem_nil, or_false] at hc
  rcases hc with rfl | rfl
  · rw [hτ.unique hl]
    simp [hlr]
  · rw [hτ.unique hr, hnarrows.sees_iff hacc.wf, hids.mem_iff hacc hid hsym]
    simp

include hacc hid hsym in
theorem sees_child_block {statements : List NodeIndex}
    (hk : ctx.tree.kind? i = some (.block statements))
    (hrule : WiringRule ctx s i sc (.block statements))
    (hc : ctx.tree.Child i c) (hτ : s.Placed c τ) :
    s.table.Sees τ id ↔ s.table.Sees sc.scope id ∨ ctx.tree.Enters i c origin := by
  obtain ⟨τ', ids, -, hscope, hids, hplaced⟩ := hrule
  rw [Tree.child_of_kind hk] at hc
  rw [hτ.unique (hplaced c hc), SymbolTable.sees_iff hacc.wf hscope, or_comm]
  have hmem : id ∈ ids ↔ ∃ d ∈ statements, s.declared.get? d = some id := by
    have hsome : id ∈ ids ↔ some id ∈ ids.map some := by simp
    rw [hsome, ← hids, List.mem_map]
    refine exists_congr fun d => ⟨fun ⟨hd, hdecl⟩ => ⟨List.mem_of_mem_filter hd, hdecl⟩, ?_⟩
    rintro ⟨hd, hdecl⟩
    obtain ⟨-, -, name', c', a, ini, hkd, -⟩ := hacc.declared hdecl
    exact ⟨List.mem_filter.mpr ⟨hd, by simp [Tree.isDeclaration, hkd, NodeKind.isDeclaration]⟩, hdecl⟩
  rw [hmem]
  simp only [Option.some.injEq, exists_eq_left']
  refine or_congr Iff.rfl ?_
  constructor
  · rintro ⟨d, hd, hdecl⟩
    obtain ⟨-, -, name', c', a, ini, -, hsym'⟩ := hacc.declared hdecl
    rw [hsym] at hsym'
    cases hsym'
    exact ⟨statements, hk, hd⟩
  · intro henters
    cases origin with
    | source d isConst =>
      obtain ⟨statements', hk', hd⟩ := henters
      rw [hk] at hk'
      cases hk'
      exact ⟨d, hd, hacc.source hid hsym⟩
    | _ => simp [Tree.Enters, hk] at henters

include hp hi hacc hid hsym in
theorem sees_child_lambda {params : List LambdaParam} {body : NodeIndex}
    (hk : ctx.tree.kind? i = some (.lambda params body)) (hsc : s.nodes.scopes? i = some sc)
    (hrule : WiringRule ctx s i sc (.lambda params body))
    (hc : ctx.tree.Child i c) (hτ : s.Placed c τ) :
    s.table.Sees τ id ↔ s.table.Sees sc.scope id ∨ ctx.tree.Enters i c origin := by
  obtain ⟨τ', ids, hinner, hscope, hids, has, hbody⟩ := hrule
  have hnodup := hp.one_slot hi
  rw [Tree.children_of_kind hk] at hnodup
  have henters : ctx.tree.Enters i c origin ↔ c = body ∧ ∃ k, origin = .parameter i k := by
    cases origin with
    | parameter l k =>
      simp only [Tree.Enters, hk, Option.some.injEq, NodeKind.lambda.injEq, Origin.parameter.injEq]
      constructor
      · rintro ⟨rfl, params', -, rfl⟩
        exact ⟨rfl, k, rfl, rfl⟩
      · rintro ⟨rfl, k', rfl, -⟩
        exact ⟨rfl, params, rfl, rfl⟩
    | _ => simp [Tree.Enters, hk]
  have hmem : id ∈ ids ↔ ∃ k, origin = .parameter i k := by
    constructor
    · intro hmem
      have hsome : s.table.symbol? id ∈ ids.map s.table.symbol? := List.mem_map_of_mem hmem
      rw [hids, hsym] at hsome
      obtain ⟨p, -, hp'⟩ := List.mem_map.mp hsome
      cases hp'
      exact ⟨p.2, rfl⟩
    · rintro ⟨k, rfl⟩
      obtain ⟨-, σ', τ'', ids', hsc', hscope', hmem⟩ := hacc.parameter hid hsym
      rw [hsc] at hsc'
      cases hsc'
      cases hinner
      rw [hscope] at hscope'
      cases hscope'
      exact hmem
  rw [henters]
  rw [Tree.child_of_kind hk] at hc
  simp only [NodeKind.children, List.mem_append, List.mem_singleton] at hc
  rcases hc with hc | rfl
  · have hne : c ≠ body := by
      rintro rfl
      exact (List.disjoint_of_nodup_append hnodup) hc (by simp)
    rw [hτ.unique (has c hc)]
    simp [hne]
  · rw [hτ.unique hbody, SymbolTable.sees_iff hacc.wf hscope, hmem, or_comm]
    simp

include hp hi hacc hid hsym in
theorem sees_child {kind : NodeKind} (hk : ctx.tree.kind? i = some kind)
    (hsc : s.nodes.scopes? i = some sc) (hrule : WiringRule ctx s i sc kind)
    (hc : ctx.tree.Child i c) (hτ : s.Placed c τ) :
    s.table.Sees τ id ↔ s.table.Sees sc.scope id ∨ ctx.tree.Enters i c origin := by
  -- All other kinds leave their children in their own scope.
  have hsame : s.Placed c sc.scope → ¬ ctx.tree.Enters i c origin →
      (s.table.Sees τ id ↔ s.table.Sees sc.scope id ∨ ctx.tree.Enters i c origin) := by
    intro hplaced hnot
    rw [hτ.unique hplaced, or_iff_left hnot]
  have hmem := hc
  rw [Tree.child_of_kind hk] at hmem
  cases kind with
  | conditional => exact sees_child_conditional hp hi hacc hid hsym hk hrule hc hτ
  | conjunction => exact sees_child_conjunction hp hi hacc hid hsym hk hrule hc hτ
  | block => exact sees_child_block hacc hid hsym hk hrule hc hτ
  | lambda => exact sees_child_lambda hp hi hacc hid hsym hk hsc hrule hc hτ
  | declaration name' isConst ascription initializer =>
    refine hsame ?_ (by cases origin <;> simp [Tree.Enters, hk])
    simp only [NodeKind.children, List.mem_append, Option.mem_toList, List.mem_singleton] at hmem
    rcases hmem with hmem | rfl
    · exact hrule.2.2.1 c hmem
    · exact hrule.2.2.2
  | typeTest operand target =>
    refine hsame ?_ (by cases origin <;> simp [Tree.Enters, hk])
    simp only [NodeKind.children, List.mem_cons, List.not_mem_nil, or_false] at hmem
    rcases hmem with rfl | rfl
    · exact hrule.2.1
    · exact hrule.2.2.1
  | _ => exact hsame (hrule.2 c hmem) (by cases origin <;> simp [Tree.Enters, hk])

end Edge

/-! ## Every node -/

/-- After the walk every node sees the new symbols that it should see, and no other. -/
theorem Walked.sees_iff {table : SymbolTable} (hp : ctx.tree.Proper root) (hwf : table.WellFormed)
    (hσ : σ < table.scopes.size) (h : Walked ctx root σ (.start ctx table) s)
    (hacc : Accounted ctx root table.symbols.size s) (hn : ctx.tree.Reaches root n) :
    ∃ sc, s.nodes.scopes? n = some sc ∧ ∀ {id : Nat} {name origin}, table.symbols.size ≤ id →
      s.table.symbol? id = some ⟨name, origin⟩ →
      (s.table.Sees sc.scope id ↔ ctx.tree.VisibleAt root origin n) := by
  induction hn with
  | refl =>
    obtain ⟨inner, hsc⟩ := h.placed
    refine ⟨_, hsc, fun {id name origin} hid _ => ?_⟩
    have hnot : ¬ s.table.Sees σ id := by
      rw [h.grows.table.sees_iff hwf hacc.wf hσ]
      intro hsees
      exact absurd (hsees.lt hwf) (by simp only [Session.start]; omega)
    exact ⟨fun hsees => absurd hsees hnot, fun hvis => absurd hvis hp.not_visibleAt_root⟩
  | @tail p c hroot hc ih =>
    obtain ⟨sc, hsc, hsees⟩ := ih
    obtain ⟨sc', kind, hwired, -, hk, hrule⟩ := h.rules hroot
    obtain ⟨scc, -, hwiredc, -⟩ := h.rules (hroot.tail hc)
    have hscopes := scopes_of_wired hwired
    rw [hsc] at hscopes
    cases hscopes
    have hplaced : s.Placed c scc.scope := ⟨scc.inner, scopes_of_wired hwiredc⟩
    refine ⟨scc, scopes_of_wired hwiredc, fun {id name origin} hid hsym => ?_⟩
    rw [sees_child hp hroot hacc hid hsym hk hsc hrule hc hplaced, hsees hid hsym,
      hp.visibleAt_child hroot hc]

/-! ## Where a narrowing ends -/

namespace Tree

variable {t : Tree}

theorem Conjunct.reaches (h : t.Conjunct c g) : t.Reaches c g := by
  obtain ⟨gs, hgs, hg⟩ := h
  induction hgs with
  | single => exact List.mem_singleton.mp hg ▸ .refl t _
  | both hk _ _ ihl ihr =>
    rcases List.mem_append.mp hg with hg | hg
    · exact ((child_of_kind hk).mpr (by simp [NodeKind.children]) : t.Child _ _).reaches.trans (ihl hg)
    · exact ((child_of_kind hk).mpr (by simp [NodeKind.children]) : t.Child _ _).reaches.trans (ihr hg)

theorem Conjunct.conjunction_between (hp : t.Proper root) (hc : t.Reaches root c)
    (h : t.Conjunct c g) (hcn : t.Reaches c n) (hng : t.Above n g) :
    ∃ l r, t.kind? n = some (.conjunction l r) := by
  obtain ⟨gs, hgs, hg⟩ := h
  induction hgs with
  | @single c hkind =>
    rw [List.mem_singleton.mp hg] at hng
    exact absurd hcn (hp.not_reaches_of_above (hc.trans hcn) hng)
  | @both c l r gs hs hk hl hr ihl ihr =>
    have hcl : t.Child c l := (child_of_kind hk).mpr (by simp [NodeKind.children])
    have hcr : t.Child c r := (child_of_kind hk).mpr (by simp [NodeKind.children])
    have hlr : l ≠ r := by
      have hnodup := hp.one_slot hc
      rw [children_of_kind hk] at hnodup
      simpa [NodeKind.children] using hnodup
    rcases hcn.eq_or_above with rfl | habove
    · exact ⟨l, r, hk⟩
    · obtain ⟨d, hd, hdn⟩ := habove.first
      have hdg := hdn.trans hng.reaches
      rw [child_of_kind hk] at hd
      simp only [NodeKind.children, List.mem_cons, List.not_mem_nil, or_false] at hd
      rcases List.mem_append.mp hg with hg | hg
      · have hlg : t.Reaches l g := Conjunct.reaches ⟨gs, hl, hg⟩
        rcases hd with rfl | rfl
        · exact ihl (hc.tail hcl) hdn hg
        · exact absurd (hp.siblings_apart hc hcl hcr hlg hdg) hlr
      · have hrg : t.Reaches r g := Conjunct.reaches ⟨hs, hr, hg⟩
        rcases hd with rfl | rfl
        · exact absurd (hp.siblings_apart hc hcl hcr hdg hrg) hlr
        · exact ihr (hc.tail hcr) hdn hg

theorem Conjunct.conditional_unique (hp : t.Proper root) {i' c' : NodeIndex} {th th' : NodeIndex}
    {el el' : Option NodeIndex} (hi : t.Reaches root i) (hi' : t.Reaches root i')
    (hk : t.kind? i = some (.conditional c th el)) (hk' : t.kind? i' = some (.conditional c' th' el'))
    (hg : t.Conjunct c g) (hg' : t.Conjunct c' g) (hcc' : t.Reaches c c') : i = i' := by
  have hc : t.Child i c := (child_of_kind hk).mpr (by simp [NodeKind.children])
  have hc' : t.Child i' c' := (child_of_kind hk').mpr (by simp [NodeKind.children])
  rcases hcc'.eq_or_above with rfl | habove
  · exact hp.one_parent hi hi' hc hc'
  · have hci' := hp.reaches_parent (hi.tail hc) hi' hc' habove
    obtain ⟨l, r, hconj⟩ := hg.conjunction_between hp (hi.tail hc) hci'
      (hc'.above.trans_reaches hg'.reaches)
    simp [hk'] at hconj

/-- What a condition narrows is seen in the condition and in the then branch only. -/
theorem Conjunct.visible_within (hp : t.Proper root) {th : NodeIndex} {el : Option NodeIndex}
    {o : SymbolId} (hi : t.Reaches root i) (hk : t.kind? i = some (.conditional c th el))
    (hg : t.Conjunct c g) (hvis : t.VisibleAt root (.narrowed o g) n) :
    t.Reaches c n ∨ t.Reaches th n := by
  have hc : t.Child i c := (child_of_kind hk).mpr (by simp [NodeKind.children])
  rcases hvis with ⟨i', c', th', el', hi', hk', hg', hn⟩ | ⟨i', l, r, hi', hk', hg', hn⟩
  · have hc' : t.Child i' c' := (child_of_kind hk').mpr (by simp [NodeKind.children])
    have heq : i = i' := by
      rcases hp.linear (hi.tail hc) (hi'.tail hc') hg.reaches hg'.reaches with h | h
      · exact hg.conditional_unique hp hi hi' hk hk' hg' h
      · exact (hg'.conditional_unique hp hi' hi hk' hk hg h).symm
    subst heq
    rw [hk] at hk'
    cases hk'
    exact Or.inr hn
  · -- A conjunction with the guard on its left is part of the condition.
    have hl : t.Child i' l := (child_of_kind hk').mpr (by simp [NodeKind.children])
    have hr : t.Child i' r := (child_of_kind hk').mpr (by simp [NodeKind.children])
    have hi'g : t.Above i' g := hl.above.trans_reaches hg'.reaches
    suffices hci' : t.Reaches c i' from Or.inl ((hci'.tail hr).trans hn)
    rcases hp.linear (hi.tail hc) hi' hg.reaches hi'g.reaches with h | h
    · exact h
    · rcases h.eq_or_above with rfl | habove
      · exact .refl t _
      · rcases (hp.reaches_parent hi' hi hc habove).eq_or_above with rfl | hi'i
        · simp [hk] at hk'
        · obtain ⟨d, hd, hdi⟩ := hi'i.first
          have hig : t.Above i g := hc.above.trans_reaches hg.reaches
          have hdl : d = l := hp.siblings_apart hi' hd hl (hdi.trans hig.reaches) hg'.reaches
          subst hdl
          obtain ⟨l', r', hconj⟩ := hg'.conjunction_between hp (hi'.tail hl) hdi hig
          simp [hk] at hconj

end Tree

/-- The scopes that the first phase assigns are lexical. In particular a narrowing is seen neither
in the else branch of its conditional nor outside of it. -/
theorem lexical_scoping {table : SymbolTable} (hp : ctx.tree.Proper root) (hwf : table.WellFormed)
    (hσ : σ < table.scopes.size) :
    (wire ctx root σ).After (.start ctx table) fun _ s =>
      ∀ n, ctx.tree.Reaches root n → ∃ sc, s.nodes.scopes? n = some sc ∧
        ∀ id sym, table.symbols.size ≤ id → s.table.symbol? id = some sym →
          (s.table.Sees sc.scope id ↔ ctx.tree.VisibleAt root sym.origin n) ∧
          ∀ i c th el o g, ctx.tree.Reaches root i →
            ctx.tree.kind? i = some (.conditional c th el) → ctx.tree.Conjunct c g →
            sym.origin = .narrowed o g →
            (¬ ctx.tree.Reaches i n ∨ ∃ e ∈ el, ctx.tree.Reaches e n) →
            ¬ s.table.Sees sc.scope id := by
  refine (wire_spec hp hwf hσ).mono ?_
  rintro - s ⟨hwalked, hacc⟩ n hn
  obtain ⟨sc, hsc, hsees⟩ := hwalked.sees_iff hp hwf hσ hacc hn
  refine ⟨sc, hsc, fun id ⟨name, origin⟩ hid hsym => ⟨hsees hid hsym, ?_⟩⟩
  rintro i c th el o g hi hk hg rfl hout hsee
  have hchild : ∀ {d}, d ∈ c :: th :: el.toList → ctx.tree.Child i d := (Tree.child_of_kind hk).mpr
  have hin := hg.visible_within hp hi hk ((hsees hid hsym).mp hsee)
  rcases hout with hout | ⟨e, he, hen⟩
  · rcases hin with hcn | htn
    · exact hout ((hchild (by simp)).reaches.trans hcn)
    · exact hout ((hchild (by simp)).reaches.trans htn)
  · have hnodup := hp.one_slot hi
    rw [Tree.children_of_kind hk] at hnodup
    simp only [NodeKind.children, List.nodup_cons, List.mem_cons, not_or, Option.mem_toList] at hnodup
    have hie := hchild (d := e) (by simp [Option.mem_def.mp he])
    rcases hin with hcn | htn
    · have heq := hp.siblings_apart hi (hchild (by simp)) hie hcn hen
      exact hnodup.1.2 (heq ▸ he)
    · have heq := hp.siblings_apart hi (hchild (by simp)) hie htn hen
      exact hnodup.2.1 (heq ▸ he)

/-- `if (v is string) v else v`, with `v` given by the host. -/
def guardedContext : Context where
  env := .initial
  options := {}
  tree := ⟨#[⟨.identifier "v", Span.empty⟩, ⟨.typeRef "string" [], Span.empty⟩,
    ⟨.typeTest 0 1, Span.empty⟩, ⟨.identifier "v", Span.empty⟩, ⟨.identifier "v", Span.empty⟩,
    ⟨.conditional 2 3 (some 4), Span.empty⟩]⟩

def guardedTable : SymbolTable :=
  (SymbolTable.hostScope {} [("v", .union [Ty.number, Ty.string])]).2

/-- The then branch sees the narrowed `v`, the else branch does not. -/
theorem narrowing_seen_in_then_branch :
    (wire guardedContext 5 0).After (.start guardedContext guardedTable) fun _ s =>
      (∃ sc, s.nodes.scopes? 3 = some sc ∧ s.table.Sees sc.scope 1) ∧
      ∃ sc, s.nodes.scopes? 4 = some sc ∧ ¬ s.table.Sees sc.scope 1 := by
  have hp : guardedContext.tree.Proper 5 := by
    apply Tree.Proper.of_slots <;> decide
  have hk : guardedContext.tree.kind? 5 = some (.conditional 2 3 (some 4)) := by decide
  have hchild : ∀ {c}, c ∈ [2, 3, 4] → guardedContext.tree.Child 5 c := (Tree.child_of_kind hk).mpr
  have hg : guardedContext.tree.Conjunct 2 2 := ⟨[2], .single (by
    have hk2 : guardedContext.tree.kind? 2 = some (.typeTest 0 1) := by decide
    simp [hk2]), by simp⟩
  have hsym : (wire guardedContext 5 0).After (.start guardedContext guardedTable) fun _ s =>
      s.table.symbol? 1 = some ⟨"v", .narrowed 0 2⟩ := by
    unfold After
    decide +kernel
  have hsize : guardedTable.symbols.size ≤ 1 := by decide
  have hwf : guardedTable.WellFormed := (SymbolTable.hostScope_spec _).wf
  have hlt : 0 < guardedTable.scopes.size := by decide
  refine ((lexical_scoping hp hwf hlt).and hsym).mono ?_
  rintro - s ⟨hscoping, hsym⟩
  obtain ⟨sc, hsc, hthen⟩ := hscoping 3 (hchild (by simp)).reaches
  obtain ⟨sc', hsc', helse⟩ := hscoping 4 (hchild (by simp)).reaches
  refine ⟨⟨sc, hsc, (hthen 1 _ hsize hsym).1.mpr ?_⟩, sc', hsc', ?_⟩
  · exact Or.inl ⟨5, 2, 3, some 4, .refl _ 5, hk, hg, .refl _ 3⟩
  · exact (helse 1 _ hsize hsym).2 5 2 3 (some 4) 0 2 (.refl _ 5) hk hg rfl
      (Or.inr ⟨4, rfl, .refl _ 4⟩)

end ScriptTyping
