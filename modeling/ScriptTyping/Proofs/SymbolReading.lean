import ScriptTyping.Proofs.Progress

/-!
# Reading symbols

A name may ask for the type of a declaration that is not resolved yet, and for the target of a
guard. Both are outside the node that asks, and still count towards its resolution.
-/

namespace ScriptTyping

open Session Check

variable {ctx : Context} {root d i l n : NodeIndex} {base id : Nat} {wanted : Option Ty}
  {s₀ s s' s'' : Session} {ty : Ty} {name : String} {origin : Origin} {sc : NodeScopes}

theorem Later.setSymbol (hsym : s.table.symbol? id = some ⟨name, origin⟩)
    (hkeep : (∀ o g, origin ≠ .narrowed o g) → s.symbolTypes.get? id = none)
    (hstep : s.diagnostics = [] → (∀ t, s.symbolTypes.get? id = some t → t = ty) ∧
      s.findings.SymbolRule ctx root wanted ty origin ∧
      ∀ l k, origin = .parameter l k → ¬ s.Recorded l) :
    Later ctx root wanted s { s with symbolTypes := s.symbolTypes.insert id ty } := by
  refine ⟨rfl, rfl, fun _ => rfl, fun h => h, ?_, ⟨[], by simp⟩, fun h => Or.inl h, ?_⟩
  · intro id' name' origin' t hsym' hne ht
    have hid : id ≠ id' := by
      rintro rfl
      rw [hsym] at hsym'
      cases hsym'
      simp [hkeep hne] at ht
    exact (OrderedMap.get?_insert_of_ne _ hid _).trans ht
  · intro hclean
    obtain ⟨hfree, hrule, hopen⟩ := hstep hclean
    refine Relation.ReflTransGen.single (.symbol hsym hfree hrule fun l k horigin => ?_)
    rw [Option.eq_none_iff_forall_ne_some]
    exact fun r hr => hopen l k horigin ⟨r, hr⟩

theorem Framed.setSymbol (hlater : Later ctx root wanted s { s with
      symbolTypes := s.symbolTypes.insert id ty })
    (hsym : s.table.symbol? id = some ⟨name, origin⟩)
    (hparam : ∀ l j, origin = .parameter l j → ctx.tree.isTypeRef i = false ∧
      ctx.tree.Reaches l i ∧ (s.diagnostics = [] → l = i)) :
    Framed ctx root wanted i s { s with symbolTypes := s.symbolTypes.insert id ty } := by
  refine ⟨hlater, rfl, rfl, fun h => Or.inl h, ?_⟩
  intro id' name' l j hsym' hset
  by_cases hid : id = id'
  · subst hid
    rw [hsym] at hsym'
    cases hsym'
    exact Or.inr (Or.inr (hparam l j rfl))
  · simp only [OrderedMap.get?_insert_of_ne _ hid] at hset
    exact Or.inl hset

theorem Progress.setSymbol (h : Progress ctx root wanted i s s')
    (hlater : Later ctx root wanted s' { s' with symbolTypes := s'.symbolTypes.insert id ty })
    (hsym : s'.table.symbol? id = some ⟨name, origin⟩) (hsource : ∀ d c, origin ≠ .source d c)
    (hparam : ∀ l j, origin = .parameter l j → ctx.tree.isTypeRef i = false ∧
      ctx.tree.Reaches l i ∧ (s'.diagnostics = [] → l = i)) :
    Progress ctx root wanted i s { s' with symbolTypes := s'.symbolTypes.insert id ty } := by
  refine h.trans ⟨.setSymbol hlater hsym hparam, ?_⟩
  intro id' name' d c hsym' hset
  by_cases hid : id = id'
  · subst hid
    rw [hsym] at hsym'
    cases hsym'
    exact absurd rfl (hsource d c)
  · simp only [OrderedMap.get?_insert_of_ne _ hid] at hset
    exact Or.inl hset

theorem Progress.reportParameter (h : Progress ctx root wanted i s s') (found : Diagnostic)
    (hvalue : ctx.tree.isTypeRef i = false) {j : Nat}
    (hsym : s'.table.symbol? id = some ⟨name, .parameter l j⟩)
    (hty : s'.symbolTypes.get? id = none) (hl : ctx.tree.Reaches l i) :
    Progress ctx root wanted i s { s' with
      diagnostics := s'.diagnostics ++ [found]
      symbolTypes := s'.symbolTypes.insert id .unknown } := by
  have hlater : Later ctx root wanted { s' with diagnostics := s'.diagnostics ++ [found] } { s' with
      diagnostics := s'.diagnostics ++ [found]
      symbolTypes := s'.symbolTypes.insert id .unknown } :=
    .setSymbol hsym (fun _ => hty) (by simp)
  refine (h.report found).setSymbol hlater hsym (by simp) ?_
  rintro l' j' heq
  cases heq
  exact ⟨hvalue, hl, by simp⟩

namespace Held

theorem symbolHasType (h : Held ctx root wanted s₀ s) (hL : Layout ctx root base s₀)
    (hclean : s.diagnostics = []) (hsym : s.table.symbol? id = some ⟨name, origin⟩)
    (hty : s.symbolTypes.get? id = some ty) : s.findings.SymbolHasType ctx id ty := by
  have hrule := (h.later.trace hclean).symbolRule (hL.untyped id) hty hsym
  cases origin with
  | source d c => exact .source hsym hty
  | parameter l k => exact .parameter hsym hty
  | host t c => exact hrule.elim
  | narrowed o g =>
    obtain ⟨operand, target, declared, asserted, hk, ht, ho, rfl⟩ := hrule
    exact .narrowed hsym hk ht ho hty

theorem source_typed (h : Held ctx root wanted s₀ s) (hL : Layout ctx root base s₀)
    (hclean : s.diagnostics = []) {c : Bool}
    (hsym : s.table.symbol? id = some ⟨name, .source d c⟩) (hd : s.Recorded d) :
    ∃ ty, s.symbolTypes.get? id = some ty := by
  have hsym₀ : s₀.table.symbol? id = some ⟨name, .source d c⟩ := h.later.table ▸ hsym
  obtain ⟨hroot, hdeclared, ascription, initializer, hk⟩ := hL.source hsym₀
  obtain ⟨r, hr⟩ := hd
  obtain ⟨kind, hk', hrule⟩ := (h.later.trace hclean).rule (hL.unresolved hroot) hr
  rw [hk] at hk'
  cases hk'
  obtain ⟨id', declared, -, -, hsym'', hty, -⟩ := hrule
  have hsym₀' : s₀.table.symbol? id' = some ⟨name, .source d c⟩ := h.later.table ▸ hsym''
  obtain ⟨-, hdeclared', -⟩ := hL.source hsym₀'
  rw [hdeclared] at hdeclared'
  cases hdeclared'
  exact ⟨declared, hty⟩

/-- Without diagnostics a narrowed symbol gets its type by the rule. It may have got it before, but
then it was the same one. -/
theorem narrowed_rule (h : Held ctx root wanted s₀ s) (hL : Layout ctx root base s₀)
    (hclean : s.diagnostics = []) {o : SymbolId} {g operand target : NodeIndex}
    {declared asserted : Ty} (hsym : s.table.symbol? id = some ⟨name, .narrowed o g⟩)
    (hk : ctx.tree.kind? g = some (.typeTest operand target))
    (htarget : s.findings.type? target = some asserted)
    (ho : s.findings.SymbolHasType ctx o declared) :
    (∀ t, s.symbolTypes.get? id = some t → t = ctx.env.definitions.narrow asserted declared) ∧
      s.findings.SymbolRule ctx root wanted (ctx.env.definitions.narrow asserted declared)
        (.narrowed o g) ∧ ∀ l k, Origin.narrowed o g = .parameter l k → ¬ s.Recorded l := by
  refine ⟨fun t ht => ?_, ⟨operand, target, declared, asserted, hk, htarget, ho, rfl⟩, by simp⟩
  obtain ⟨operand', target', declared', asserted', hk', htarget', ho', rfl⟩ :=
    (h.later.trace hclean).symbolRule (hL.untyped id) ht hsym
  rw [hk] at hk'
  cases hk'
  rw [htarget] at htarget'
  cases htarget'
  rw [ho.unique ho']

theorem ready_of_visible (h : Held ctx root wanted s₀ s) (hL : Layout ctx root base s₀)
    (hroot : ctx.tree.Reaches root d) (hdecl : ctx.tree.isDeclaration d = true)
    (hunsettled : ¬ s.Settled d)
    (habove : ∀ {x}, ctx.tree.Reaches root x → ctx.tree.isDeclaration x = true →
      ctx.tree.Above x d → s.Settled x) : Ready ctx root s d := by
  refine ⟨habove, ?_, ?_⟩
  · intro x hx hdx
    rcases hdx.eq_or_above with rfl | hdx
    · exact hunsettled (Or.inr hx)
    · exact hunsettled (h.ancestors hx hroot hdecl hdx)
  · intro id name l j hsym hdl hnot
    by_contra hset
    rcases h.params hsym hset with hrec | hopen
    · exact hnot hrec
    · rcases hdl.eq_or_above with rfl | hdl
      · have hsym₀ : s₀.table.symbol? id = some ⟨name, .parameter l j⟩ := h.later.table ▸ hsym
        simp [hL.not_declaration_of_parameter hsym₀] at hdecl
      · exact hunsettled (hopen hroot hdecl hdl)

end Held

namespace Resolving

variable {resolve : Resolver} (h : Resolving ctx root base wanted s₀ resolve i s)
  (hvalue : ctx.tree.isTypeRef i = false)

include h hvalue

theorem busy_value : Busy ctx root s i := by
  rcases h.busy with htype | hb
  · simp [hvalue] at htype
  · exact hb

theorem demand (hp : Progress ctx root wanted i s s') {c : Bool}
    (hsym : s'.table.symbol? id = some ⟨name, .source d c⟩)
    (hvis : ctx.tree.VisibleAt root (.source d c) i) (hfree : d ∉ s'.inProgress) :
    (resolve d none).After s' fun _ s'' => Progress ctx root wanted i s s'' ∧
      Later ctx root wanted s' s'' ∧ s''.Recorded d := by
  have hb := h.busy_value hvalue
  have hheld := h.held_after hp
  have hsym₀ : s₀.table.symbol? id = some ⟨name, .source d c⟩ := hheld.later.table ▸ hsym
  obtain ⟨hroot, -, ascription, initializer, hk⟩ := h.layout.source hsym₀
  have hdecl : ctx.tree.isDeclaration d = true := by
    simp [Tree.isDeclaration, hk, NodeKind.isDeclaration]
  have hsettled : ∀ {x}, s.Settled x → s'.Settled x := hp.later.settled hp.inProgress
  by_cases hrec : s'.Recorded d
  · refine (h.resolver hheld hroot (Or.inl hrec) .none).mono ?_
    intro ty s'' hout
    cases hout.again hrec
    exact ⟨hp, .refl _, hrec⟩
  · have hunsettled : ¬ s'.Settled d := fun hd => hd.elim hrec hfree
    have hready := hheld.ready_of_visible h.layout hroot hdecl hunsettled fun hx hxdecl hxd =>
      hsettled (hb.ancestors hx hxdecl (h.layout.above_of_visible hvis hx hxd).reaches)
    refine (h.resolver hheld hroot (Or.inr (Or.inr hready)) .none).mono ?_
    intro ty s'' hout
    refine ⟨hp.trans ⟨⟨hout.later, hout.inProgress, hout.depth, ?_, ?_⟩, hout.sources⟩, hout.later,
      recorded_iff.mpr ⟨ty, hout.recorded⟩⟩
    · intro m hm
      have hwithin : ctx.tree.Reaches d m → Within ctx root s' i m := fun hdm =>
        Or.inr ⟨hvalue, Or.inr ⟨d, hroot, hdecl, hdm, hunsettled⟩⟩
      rcases hout.nodes hm with hm | rfl | habove | ⟨-, hrest⟩
      · exact Or.inl hm
      · exact Or.inr (hwithin (.refl _ _))
      · exact Or.inr (hwithin habove.reaches)
      · exact Or.inr (Or.inr ⟨hvalue, hrest⟩)
    · intro id' name' l j hsym' hset
      rcases hout.params hsym' hset with hset | hl | ⟨-, habove, hdirty⟩
      · exact Or.inl hset
      · exact Or.inr (Or.inl hl)
      · have hl₀ : s₀.table.symbol? id' = some ⟨name', .parameter l j⟩ := hheld.later.table ▸ hsym'
        obtain ⟨hl, -⟩ := h.layout.accounted.parameter (h.layout.base_le hl₀ (by simp)) hl₀
        exact Or.inr (Or.inr ⟨hvalue, (h.layout.above_of_visible hvis hl habove).reaches,
          fun hclean => absurd hclean hdirty⟩)

theorem visit_type (hp : Progress ctx root wanted i s s') (hn : ctx.tree.Reaches root n)
    (htype : ctx.tree.isTypeRef n = true) :
    (resolve n none).After s' fun ty s'' => Progress ctx root wanted i s s'' ∧
      Later ctx root wanted s' s'' ∧ s''.findings.type? n = some ty := by
  refine (h.resolver (h.held_after hp) hn (Or.inr (Or.inl htype)) .none).mono ?_
  intro ty s'' hout
  refine ⟨hp.trans ⟨⟨hout.later, hout.inProgress, hout.depth, ?_, ?_⟩, hout.sources⟩, hout.later,
    hout.recorded⟩
  · intro m hm
    have hbelow : ctx.tree.Reaches n m → Within ctx root s' i m := fun hnm =>
      Or.inr ⟨hvalue, Or.inl (h.layout.types.below hn htype hnm)⟩
    rcases hout.nodes hm with hm | rfl | habove | ⟨hfalse, -⟩
    · exact Or.inl hm
    · exact Or.inr (hbelow (.refl _ _))
    · exact Or.inr (hbelow habove.reaches)
    · simp [htype] at hfalse
  · intro id' name' l j hsym hset
    rcases hout.params hsym hset with hset | hl | ⟨hfalse, -⟩
    · exact Or.inl hset
    · exact Or.inr (Or.inl hl)
    · simp [htype] at hfalse

theorem guardType_spec (hp : Progress ctx root wanted i s s') {g o : NodeIndex}
    (hsym : s'.table.symbol? id = some ⟨name, .narrowed o g⟩) :
    (guardType ctx resolve g).After s' fun ty s'' => Progress ctx root wanted i s s'' ∧
      Later ctx root wanted s' s'' ∧ ∃ operand target,
        ctx.tree.kind? g = some (.typeTest operand target) ∧ s''.findings.type? target = some ty := by
  have hL := h.layout
  have hsym₀ : s₀.table.symbol? id = some ⟨name, .narrowed o g⟩ :=
    (h.held_after hp).later.table ▸ hsym
  obtain ⟨hname, htruth, -⟩ := hL.accounted.narrowed (hL.base_le hsym₀ (by simp)) hsym₀
  obtain ⟨operand, target, hk, -⟩ := Tree.kind_of_guardName hname
  have hg : ctx.tree.Reaches root g := (hL.accounted.truths htruth).1
  have htarget : ctx.tree.isTypeRef target = true :=
    (hL.types g _ hg hk).1 target (by simp [NodeKind.typePlaces])
  have hchild : ctx.tree.Child g target := (Tree.child_of_kind hk).mpr (by simp [NodeKind.children])
  unfold guardType
  simp only [hk]
  refine (h.visit_type hvalue hp (hg.tail hchild) htarget).mono ?_
  rintro ty s'' ⟨hp', hlater, hty⟩
  exact ⟨hp', hlater, operand, target, rfl, hty⟩

theorem symbolTypeWithin_spec (hsc : s₀.nodes.scopes? i = some sc) {links : Nat}
    (hp : Progress ctx root wanted i s s') (hsees : s₀.table.Sees sc.scope id)
    (hlinks : id < links) :
    (symbolTypeWithin ctx resolve i links id).After s' fun ty s'' =>
      Progress ctx root wanted i s s'' ∧ Later ctx root wanted s' s'' ∧
        (s''.diagnostics = [] → s''.findings.SymbolHasType ctx id ty) := by
  have hL := h.layout
  induction links generalizing id s' with
  | zero => omega
  | succ links ih =>
    have hheld := h.held_after hp
    obtain ⟨⟨name, origin⟩, hsym₀⟩ := SymbolTable.exists_symbol (hsees.lt hL.accounted.wf)
    have hsym : s'.table.symbol? id = some ⟨name, origin⟩ := hheld.later.table ▸ hsym₀
    have hvis : (∀ ty c, origin ≠ .host ty c) → ctx.tree.VisibleAt root origin i := fun hne =>
      (hL.sees h.reaches hsc (hL.base_le hsym₀ hne) hsym₀).mp hsees
    unfold symbolTypeWithin
    simp only [after_bind, after_get]
    cases hty : s'.symbolTypes.get? id with
    | some ty =>
      exact ⟨hp, .refl s', fun hclean => hheld.symbolHasType hL hclean hsym hty⟩
    | none =>
      simp only [hsym]
      cases origin with
      | host ty c => exact ⟨hp, .refl s', fun _ => .host hsym⟩
      | source d c =>
        simp only
        split
        · simp only [after_bind, after_reportAt, after_pure]
          exact ⟨hp.report _, .report s' _, by simp⟩
        · rename_i hfree
          simp only [after_bind, after_get, after_pure]
          refine (h.demand hvalue hp hsym (hvis (by simp)) (by simpa using hfree)).mono ?_
          rintro - s'' ⟨hp', hlater, hrec⟩
          refine ⟨hp', hlater, fun hclean => ?_⟩
          have hsym'' : s''.table.symbol? id = some ⟨name, .source d c⟩ := hlater.table ▸ hsym
          obtain ⟨ty, hty⟩ := (h.held_after hp').source_typed hL hclean hsym'' hrec
          rw [hty]
          exact .source hsym'' hty
      | parameter l j =>
        simp only [after_bind, after_reportAt, after_setSymbolType, after_pure]
        have habove := Layout.above_of_parameter (hvis (by simp))
        exact ⟨hp.reportParameter _ hvalue hsym hty habove.reaches,
          (Later.report s' _).trans (.setSymbol hsym (fun _ => hty) (by simp)), by simp⟩
      | narrowed o g =>
        have hbase := hL.base_le hsym₀ (by simp)
        obtain ⟨-, -, hlt⟩ := hL.accounted.narrowed hbase hsym₀
        simp only [after_bind, after_setSymbolType, after_pure]
        refine (ih hp (hL.accounted.originals hbase hsym₀ hsees) (by omega)).mono ?_
        rintro declared s1 ⟨hp1, hlater1, hdeclared⟩
        have hsym1 : s1.table.symbol? id = some ⟨name, .narrowed o g⟩ := hlater1.table ▸ hsym
        refine (h.guardType_spec hvalue hp1 hsym1).mono ?_
        rintro asserted s2 ⟨hp2, hlater2, operand, target, hk, htarget⟩
        have hsym2 : s2.table.symbol? id = some ⟨name, .narrowed o g⟩ := hlater2.table ▸ hsym1
        have ho : s2.diagnostics = [] → s2.findings.SymbolHasType ctx o declared := fun hclean =>
          (hdeclared (hlater2.clean hclean)).mono (hlater2.trace hclean).extends_
        have hlater3 : Later ctx root wanted s2 { s2 with
            symbolTypes := s2.symbolTypes.insert id (ctx.env.definitions.narrow asserted declared) } :=
          .setSymbol hsym2 (fun hne => absurd rfl (hne o g)) fun hclean =>
            (h.held_after hp2).narrowed_rule hL hclean hsym2 hk htarget (ho hclean)
        refine ⟨hp2.setSymbol hlater3 hsym2 (by simp) (by simp),
          hlater1.trans (hlater2.trans hlater3), ?_⟩
        intro hclean
        have hext := (hlater3.trace hclean).extends_
        exact .narrowed hsym2 hk (hext.type htarget) ((ho hclean).mono hext)
          (OrderedMap.get?_insert_self _ _ _)

theorem symbolType_spec (hsc : s₀.nodes.scopes? i = some sc)
    (hsees : s₀.table.Sees sc.scope id) :
    (symbolType ctx resolve id i).After s fun ty s' => Progress ctx root wanted i s s' ∧
      (s'.diagnostics = [] → s'.findings.SymbolHasType ctx id ty) := by
  have hlt : id < s.table.symbols.size := by
    rw [h.held.later.table]
    exact hsees.lt h.layout.accounted.wf
  unfold symbolType
  simp only [after_bind, after_get]
  refine (h.symbolTypeWithin_spec hvalue hsc (.refl i s) hsees (by omega)).mono ?_
  rintro ty s' ⟨hp, -, hty⟩
  exact ⟨hp, hty⟩

end Resolving

end ScriptTyping
