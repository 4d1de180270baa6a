import ScriptTyping.Proofs.FalseAlarms

/-!
# No missed cycles

As long as there is no alarm, whatever a node needs is typed before the node itself. So no typed
node has a way back to itself, however the resolutions of declarations are nested.
-/

namespace ScriptTyping

open Session Check

variable {ctx : Context} {root c d i k n q : NodeIndex} {base id : Nat} {s₀ s s' s'' : Session}
  {resolve : Resolver} {sc : NodeScopes} {kind : NodeKind} {cs : List NodeIndex}

/-- A circular reference has been reported, or the depth limit. -/
def Session.Alarmed (s : Session) : Prop :=
  s.Reports .circularReference ∨ s.Reports .expressionTooDeep

theorem Session.Onward.quiet (h : s.Onward s') (hs' : ¬ s'.Alarmed) : ¬ s.Alarmed := by
  have hreports : ∀ {m}, s.Reports m → s'.Reports m := fun ⟨f, hf, hcode⟩ =>
    ⟨f, h.mem_diagnostics hf, hcode⟩
  exact fun halarm => hs' (halarm.imp hreports hreports)

theorem Session.typed_recorded {ty : Ty} {binding : Binding}
    (h : (s.recorded i ty binding).Typed n) : n = i ∨ s.Typed n := by
  unfold Typed Session.recorded NodeStates.record? at h
  split at h
  · by_cases hin : i = n
    · exact Or.inl hin.symm
    · rw [Option.getD_some, NodeStates.get?_set_of_ne _ hin] at h
      exact Or.inr h
  · exact Or.inr h

/-- No way leads back to a typed node, and a symbol gets its type after its declaration. -/
structure Grounds (ctx : Context) (root : NodeIndex) (s₀ s : Session) : Prop where
  limit : s.depthExceeded = false
  nodes : ∀ {n}, ctx.tree.Reaches root n → s.Typed n → Grounded ctx s₀ n
  symbols : ∀ {id ty d}, s.symbolTypes.get? id = some ty → s₀.table.StandsFor id d → s.Typed d

namespace Grounds

theorem of_symbols (h : Grounds ctx root s₀ s) (hlimit : s'.depthExceeded = s.depthExceeded)
    (hnodes : s'.nodes = s.nodes)
    (hsymbols : ∀ {id ty d}, s'.symbolTypes.get? id = some ty → s₀.table.StandsFor id d →
      s.Typed d) : Grounds ctx root s₀ s' := by
  have htyped : ∀ {n}, s'.Typed n ↔ s.Typed n := by
    intro n
    rw [Typed, Typed, hnodes]
  refine ⟨hlimit.trans h.limit, fun hn ht => h.nodes hn (htyped.mp ht), fun hty hid => ?_⟩
  exact htyped.mpr (hsymbols hty hid)

theorem of_same (h : Grounds ctx root s₀ s) (hlimit : s'.depthExceeded = s.depthExceeded)
    (hnodes : s'.nodes = s.nodes) (hsymbols : s'.symbolTypes = s.symbolTypes) :
    Grounds ctx root s₀ s' :=
  h.of_symbols hlimit hnodes fun hty hid => h.symbols (hsymbols ▸ hty) hid

theorem setSymbol (h : Grounds ctx root s₀ s) {ty : Ty}
    (hid : ∀ d, s₀.table.StandsFor id d → s.Typed d) :
    Grounds ctx root s₀ { s with symbolTypes := s.symbolTypes.insert id ty } := by
  refine h.of_symbols rfl rfl fun {id' ty' d} hty hstands => ?_
  simp only [OrderedMap.get?_insert] at hty
  split at hty
  · rename_i heq
    exact hid d (heq ▸ hstands)
  · exact h.symbols hty hstands

/-- A node may become typed when all that it needs is. If it is a declaration, its symbol gets its
type just before. -/
theorem recorded (h : Grounds ctx root s₀ s) (honward : s.Onward s') (hnodes : s'.nodes = s.nodes)
    (hlimit : s'.depthExceeded = s.depthExceeded)
    (hneeds : ∀ q, Needs ctx s₀ i q → ctx.tree.Reaches root q ∧ s.Typed q)
    (hsymbols : ∀ {id ty d}, s'.symbolTypes.get? id = some ty → s₀.table.StandsFor id d →
      d = i ∨ s.Typed d) {ty : Ty} {binding : Binding} (hi : (s'.recorded i ty binding).Typed i) :
    Grounds ctx root s₀ (s'.recorded i ty binding) := by
  refine ⟨hlimit.trans h.limit, fun hn ht => ?_, fun hty hid => ?_⟩
  · rcases typed_recorded ht with rfl | ht
    · exact Acc.intro _ fun q hq => h.nodes (hneeds q hq).1 (hneeds q hq).2
    · rw [Typed, hnodes] at ht
      exact h.nodes hn ht
  · rcases hsymbols hty hid with rfl | hd
    · exact hi
    · exact (honward.trans (onward_recorded s' i ty binding)).typed hd

end Grounds

/-- The resolver keeps to the ground, unless there is an alarm. -/
def Thorough (ctx : Context) (root : NodeIndex) (s₀ : Session) (resolve : Resolver) : Prop :=
  ∀ k expected s, s₀.Onward s → ctx.tree.Reaches root k → Grounds ctx root s₀ s →
    ¬ (resolve k expected s).2.Alarmed →
    Grounds ctx root s₀ (resolve k expected s).2 ∧ (resolve k expected s).2.Typed k

/-! ## Names -/

section Names

variable (hL : Layout ctx root base s₀) (hresolve : Thorough ctx root s₀ resolve)
  (honward : GoesOnward resolve)

include hL hresolve honward

theorem guardType_grounds {o : SymbolId} {name : String} {g : NodeIndex}
    (hsym : s₀.table.symbol? id = some ⟨name, .narrowed o g⟩) (hs : s₀.Onward s) :
    (guardType ctx resolve g).After s fun _ s' => s.Onward s' ∧
      (Grounds ctx root s₀ s → ¬ s'.Alarmed → Grounds ctx root s₀ s') := by
  unfold guardType
  split
  · rename_i operand target hk
    have hroot := (hL.typeTest_target hsym hk).1
    exact ⟨honward target none s, fun hg hquiet => (hresolve target none s hs hroot hg hquiet).1⟩
  · exact ⟨.refl s, fun hg _ => hg⟩

theorem symbolTypeWithin_grounds {links : Nat} (hlinks : id < links) (hs : s₀.Onward s)
    (hg : Grounds ctx root s₀ s) :
    (symbolTypeWithin ctx resolve i links id).After s fun _ s' => s.Onward s' ∧
      (¬ s'.Alarmed → Grounds ctx root s₀ s' ∧ ∀ d, s₀.table.StandsFor id d → s'.Typed d) := by
  induction links generalizing id s with
  | zero => omega
  | succ links ih =>
    -- A symbol without original and declaration stands for nothing.
    have hfree : ∀ {symbol}, s₀.table.symbol? id = symbol →
        (∀ name o g, symbol ≠ some ⟨name, .narrowed o g⟩) →
        (∀ name d c, symbol ≠ some ⟨name, .source d c⟩) → ∀ d, ¬ s₀.table.StandsFor id d := by
      rintro symbol rfl hnarrowed hsource d hstands
      obtain ⟨name, c, hsym⟩ := (SymbolTable.standsFor_iff hnarrowed).mp hstands
      exact hsource name d c hsym
    unfold symbolTypeWithin
    simp only [after_bind, after_get]
    split
    · rename_i ty hty
      exact ⟨.refl s, fun _ => ⟨hg, fun d hd => hg.symbols hty hd⟩⟩
    · rw [hs.table]
      split
      · rename_i hsym
        exact ⟨.refl s, fun _ => ⟨hg, fun d hd => absurd hd (hfree hsym (by simp) (by simp) d)⟩⟩
      · rename_i hsym
        exact ⟨.refl s, fun _ => ⟨hg, fun d hd => absurd hd (hfree hsym (by simp) (by simp) d)⟩⟩
      · rename_i name d c hsym
        split
        · refine ⟨.report s _, fun hquiet => absurd ?_ hquiet⟩
          exact Or.inl ⟨_, List.mem_append_right _ (List.mem_singleton.mpr rfl), rfl⟩
        · refine ⟨honward d none s, fun hquiet => ?_⟩
          obtain ⟨hg', hd⟩ := hresolve d none s hs (hL.source hsym).1 hg hquiet
          refine ⟨hg', fun d' hstands => ?_⟩
          obtain ⟨name', c', hsym'⟩ := (SymbolTable.standsFor_iff (by simp [hsym])).mp hstands
          rw [hsym] at hsym'
          cases hsym'
          exact hd
      · rename_i name l j hsym
        have hnone := hfree hsym (by simp) (by simp)
        refine ⟨(Onward.report s _).trans (.of_same rfl rfl rfl rfl), fun _ =>
          ⟨?_, fun d hd => absurd hd (hnone d)⟩⟩
        have hreported : Grounds ctx root s₀ { s with diagnostics := s.diagnostics ++
            [.ofMessage (ctx.tree.span i) .parameterNotInferred [name]] } := hg.of_same rfl rfl rfl
        exact hreported.setSymbol fun d hd => absurd hd (hnone d)
      · rename_i name o g hsym
        have hlt := hL.originalsFirst hsym
        have hstands : ∀ d, s₀.table.StandsFor id d ↔ s₀.table.StandsFor o d := fun d =>
          SymbolTable.standsFor_original hL.originalsFirst hsym
        simp only [after_bind, after_pure]
        refine (ih (by omega) hs hg).mono ?_
        rintro declared s1 ⟨hs1, hread⟩
        refine (guardType_grounds hL hresolve honward hsym (hs.trans hs1)).mono ?_
        rintro asserted s2 ⟨hs2, hguard⟩
        refine ⟨hs1.trans (hs2.trans (.of_same rfl rfl rfl rfl)), fun hquiet => ?_⟩
        have hquiet2 : ¬ s2.Alarmed := hquiet
        obtain ⟨hg1, htyped⟩ := hread (hs2.quiet hquiet2)
        have htyped2 : ∀ d, s₀.table.StandsFor id d → s2.Typed d := fun d hd =>
          hs2.typed (htyped d ((hstands d).mp hd))
        exact ⟨(hguard hg1 hquiet2).setSymbol htyped2, htyped2⟩

theorem resolveIdentifier_grounds {name : String}
    (hk : ctx.tree.kind? i = some (.identifier name)) (hsc : s₀.nodes.scopes? i = some sc)
    (hs : s₀.Onward s) (hg : Grounds ctx root s₀ s) :
    (resolveIdentifier ctx resolve i sc.scope name).After s fun _ s' =>
      ¬ s'.Alarmed → Grounds ctx root s₀ s' ∧
        ∀ d, RefersTo ctx s₀.nodes s₀.table i d → s'.Typed d := by
  have hrefers : ∀ {d}, RefersTo ctx s₀.nodes s₀.table i d →
      ∃ id, s₀.table.resolve sc.scope name = some id ∧ s₀.table.StandsFor id d := by
    rintro d ⟨name', sc', id, hk', hsc', hid, hstands⟩
    rw [hk] at hk'
    cases hk'
    rw [hsc] at hsc'
    cases hsc'
    exact ⟨id, hid, hstands⟩
  unfold resolveIdentifier
  simp only [after_bind, after_get, hs.table]
  split
  · rename_i hnone
    refine fun _ => ⟨hg.of_same rfl rfl rfl, fun d hd => ?_⟩
    obtain ⟨id, hid, -⟩ := hrefers hd
    simp [hnone] at hid
  · rename_i id hid
    obtain ⟨sym, hsym, -⟩ := (SymbolTable.sees_of_resolve hid).2
    have hlt : id < s.table.symbols.size + 1 := by
      rw [hs.table]
      exact Nat.lt_succ_of_lt (SymbolTable.symbol_lt hsym)
    simp only [after_bind, after_pure, symbolType, after_get]
    refine (symbolTypeWithin_grounds hL hresolve honward hlt hs hg).mono ?_
    rintro ty s' ⟨-, hread⟩ hquiet
    obtain ⟨hg', htyped⟩ := hread hquiet
    refine ⟨hg', fun d hd => ?_⟩
    obtain ⟨id', hid', hstands⟩ := hrefers hd
    rw [hid] at hid'
    cases hid'
    exact htyped d hstands

end Names

/-! ## Other nodes -/

theorem Layout.listed_parameters (hL : Layout ctx root base s₀) (hi : ctx.tree.Reaches root i)
    (hsc : s₀.nodes.scopes? i = some sc) {params : List LambdaParam} {body : NodeIndex}
    (hk : ctx.tree.kind? i = some (.lambda params body)) :
    (listed s₀.table sc).map s₀.table.symbol? =
      (parameterNames ctx params).zipIdx.map (fun p => some ⟨p.1, .parameter i p.2⟩) := by
  obtain ⟨τ, ids, hinner, hscope, hids, -⟩ := hL.rule hi hsc hk
  simpa [listed, hinner, hscope] using hids

/-- A node visits all of its children: a lambda has a symbol for each parameter. -/
theorem Layout.visited_eq (hL : Layout ctx root base s₀) (hi : ctx.tree.Reaches root i)
    (hsc : s₀.nodes.scopes? i = some sc) (hk : ctx.tree.kind? i = some kind) :
    visited s₀.table sc kind = kind.children := by
  cases kind with
  | lambda params body =>
    have hlength : params.length ≤ (listed s₀.table sc).length := by
      have h := congrArg List.length (hL.listed_parameters hi hsc hk)
      simp only [List.length_map, List.length_zipIdx, parameterNames] at h
      split at h
      · rename_i hempty
        simp [List.isEmpty_iff.mp hempty]
      · simp [h]
    have hzip : (params.zip (listed s₀.table sc)).map Prod.fst = params := List.map_fst_zip hlength
    simp only [visited, NodeKind.children]
    conv => rhs; rw [← hzip, List.filterMap_map]
    rfl
  | _ => rfl

section Node

variable (hL : Layout ctx root base s₀) (hi : ctx.tree.Reaches root i)
  (hsc : s₀.nodes.scopes? i = some sc) (hresolve : Thorough ctx root s₀ resolve)

include hL hi hsc hresolve

theorem Move.grounds (h : Move ctx resolve s₀.table i sc cs s s')
    (hname : ∀ name, ctx.tree.kind? i ≠ some (.identifier name)) (hs : s₀.Onward s)
    (hcs : ∀ c ∈ cs, ctx.tree.Child i c) (hg : Grounds ctx root s₀ s) (hquiet : ¬ s'.Alarmed) :
    Grounds ctx root s₀ s' ∧ ∀ c ∈ cs, s'.Typed c := by
  have hreads : ∀ {id}, ¬ Reads ctx s₀.table i sc.scope id := fun hread =>
    hread.identifier.elim hname
  cases h with
  | visit s c expected =>
    obtain ⟨hg', hc⟩ := hresolve c expected s hs (hi.tail (hcs c (by simp))) hg hquiet
    exact ⟨hg', by simpa using hc⟩
  | report => exact ⟨hg.of_same rfl rfl rfl, by simp⟩
  | circular _ hread => exact absurd hread hreads
  | demand _ hread => exact absurd hread hreads
  | target _ hread => exact absurd hread hreads
  | symbol _ hread => exact absurd hread hreads
  | @parameter _ id params body hk hid ty =>
    refine ⟨hg.setSymbol fun d hstands => ?_, by simp⟩
    have hmem : s₀.table.symbol? id ∈ (listed s₀.table sc).map s₀.table.symbol? :=
      List.mem_map_of_mem hid
    rw [hL.listed_parameters hi hsc hk] at hmem
    obtain ⟨p, -, hsym⟩ := List.mem_map.mp hmem
    obtain ⟨name, c, hsym'⟩ := (SymbolTable.standsFor_iff (by simp [← hsym])).mp hstands
    rw [← hsym] at hsym'
    cases hsym'

theorem Work.grounds (h : Work ctx resolve s₀.table i sc cs s s') (honward : GoesOnward resolve)
    (hname : ∀ name, ctx.tree.kind? i ≠ some (.identifier name)) (hs : s₀.Onward s)
    (hcs : ∀ c ∈ cs, ctx.tree.Child i c) (hg : Grounds ctx root s₀ s) (hquiet : ¬ s'.Alarmed) :
    Grounds ctx root s₀ s' ∧ ∀ c ∈ cs, s'.Typed c := by
  induction h with
  | start s => exact ⟨hg, by simp⟩
  | move hwork hm ih =>
    have hmove := hm.onward honward
    obtain ⟨hg', htyped⟩ := ih hs (fun c hc => hcs c (List.mem_append_left _ hc)) hg
      (hmove.quiet hquiet)
    obtain ⟨hg'', htyped'⟩ := hm.grounds hL hi hsc hresolve hname (hs.trans (hwork.onward honward))
      (fun c hc => hcs c (List.mem_append_right _ hc)) hg' hquiet
    refine ⟨hg'', fun c hc => ?_⟩
    rcases List.mem_append.mp hc with hc | hc
    · exact hmove.typed (htyped c hc)
    · exact htyped' c hc

end Node

/-! ## A whole resolution -/

theorem Layout.node_wired (hL : Layout ctx root base s₀) (hn : ctx.tree.Reaches root n) :
    s₀.Wired n := by
  obtain ⟨sc, kind, hwired, -⟩ := hL.wired hn
  exact Or.inl ⟨sc, hwired⟩

/-- Without an alarm a node that is resolved has all that it needs, its symbol apart. -/
theorem Resolved.grounds (h : Resolved ctx resolve i sc kind s s')
    (hL : Layout ctx root base s₀) (hi : ctx.tree.Reaches root i)
    (hsc : s₀.nodes.scopes? i = some sc) (hk : ctx.tree.kind? i = some kind)
    (hresolve : Thorough ctx root s₀ resolve) (honward : GoesOnward resolve) (hs : s₀.Onward s)
    (hg : Grounds ctx root s₀ s) (hquiet : ¬ s'.Alarmed) :
    ∃ s1, Grounds ctx root s₀ s1 ∧ s1.Onward s' ∧ s'.nodes = s1.nodes ∧
      s'.depthExceeded = s1.depthExceeded ∧
      (∀ q, Needs ctx s₀ i q → ctx.tree.Reaches root q ∧ s1.Typed q) ∧
      ∀ id ty d, s'.symbolTypes.get? id = some ty → s₀.table.StandsFor id d →
        d = i ∨ s1.Typed d := by
  have hchildren : ∀ s1 : Session, (∀ name, kind ≠ .identifier name) →
      (∀ c ∈ kind.children, s1.Typed c) → ∀ q, Needs ctx s₀ i q →
      ctx.tree.Reaches root q ∧ s1.Typed q := by
    intro s1 hname htyped q hq
    rcases hq with hchild | ⟨name, -, -, hk', -⟩
    · exact ⟨hi.tail hchild, htyped q ((Tree.child_of_kind hk).mp hchild)⟩
    · rw [hk] at hk'
      cases hk'
      exact absurd rfl (hname name)
  cases h with
  | plain hkind horder hwork hname =>
    by_cases hident : ∃ name, kind = .identifier name
    · obtain ⟨name, rfl⟩ := hident
      have hread := resolveIdentifier_grounds hL hresolve honward hk hsc hs hg
      rw [After, ← hname name rfl] at hread
      obtain ⟨hg', htyped⟩ := hread hquiet
      refine ⟨s', hg', .refl s', rfl, rfl, fun q hq => ?_, fun _ _ _ hty hid =>
        Or.inr (hg'.symbols hty hid)⟩
      rcases hq with hchild | href
      · rw [Tree.child_of_kind hk] at hchild
        simp [NodeKind.children] at hchild
      · exact ⟨(hL.refersTo_declaration href).1, htyped q href⟩
    · rw [hs.table] at hwork horder
      rw [hL.visited_eq hi hsc hk] at horder
      obtain ⟨hg', htyped⟩ := hwork.grounds hL hi hsc hresolve honward
        (fun name hk' => hident ⟨name, Option.some.inj (hk.symm.trans hk')⟩) hs
        (fun c hc => (Tree.child_of_kind hk).mpr (horder.subset hc)) hg hquiet
      exact ⟨s', hg', .refl s', rfl, rfl, hchildren s' (fun name hname => hident ⟨name, hname⟩)
        fun c hc => htyped c (horder.symm.subset hc), fun _ _ _ hty hid =>
          Or.inr (hg'.symbols hty hid)⟩
  | @declaration order _ s1 hkind horder hwork ty =>
    have hnot : ∀ name, kind ≠ .identifier name := by
      rintro name rfl
      simp [NodeKind.isDeclaration] at hkind
    have hbegun := onward_begun s i
    have hended := onward_ended s1 i ty
    have hs1 : s₀.Onward s1 := hs.trans (hbegun.trans (hwork.onward honward))
    rw [hs.table] at hwork
    obtain ⟨hg', htyped⟩ := hwork.grounds hL hi hsc hresolve honward
      (fun name hk' => hnot name (Option.some.inj (hk.symm.trans hk'))) (hs.trans hbegun)
      (fun c hc => (Tree.child_of_kind hk).mpr (horder.subset hc)) (hg.of_same rfl rfl rfl)
      (hended.quiet hquiet)
    refine ⟨s1, hg', hended, rfl, rfl, hchildren s1 hnot fun c hc =>
      htyped c (horder.symm.subset hc), fun id ty' d hty hstands => ?_⟩
    -- The symbol that gets its type here is that of the declaration itself.
    simp only [ended, hs1.declared] at hty
    split at hty
    · rename_i id' hid'
      obtain ⟨-, -, name, c, -, -, -, hsym⟩ := hL.accounted.declared hid'
      rw [OrderedMap.get?_insert] at hty
      split at hty
      · rename_i heq
        subst heq
        obtain ⟨name', c', hsym'⟩ := (SymbolTable.standsFor_iff (by simp [hsym])).mp hstands
        rw [hsym] at hsym'
        cases hsym'
        exact Or.inl rfl
      · exact Or.inr (hg'.symbols hty hstands)
    · exact Or.inr (hg'.symbols hty hstands)

theorem Call.grounds {remaining : Nat} (h : Call ctx remaining i s s')
    (hL : Layout ctx root base s₀) (hi : ctx.tree.Reaches root i)
    (hbelow : ∀ below, remaining = below + 1 → Thorough ctx root s₀ (resolveWithin ctx below))
    (hs : s₀.Onward s) (hg : Grounds ctx root s₀ s) (hquiet : ¬ s'.Alarmed) :
    Grounds ctx root s₀ s' ∧ s'.Typed i := by
  have htyped := h.typed (hs.wired (hL.node_wired hi)) (hL.proper.present hi)
  refine ⟨?_, htyped⟩
  cases h with
  | done => exact hg
  | missing => exact hg
  | limit =>
    refine absurd (Or.inr ?_) hquiet
    simp only [Session.tooDeep, hg.limit]
    exact ⟨_, List.mem_append_right _ (List.mem_singleton.mpr rfl), rfl⟩
  | @node below _ sc kind _ s1 _ hsc hk hresolved ty binding =>
    have henter : s.Onward { s with depth := s.depth + 1 } := .of_same rfl rfl rfl rfl
    obtain ⟨s2, hg2, honward, hnodes, hlimit, hneeds, hsymbols⟩ := hresolved.grounds hL hi
      ((hs.scopes i).symm.trans hsc) hk (hbelow below rfl) (resolveWithin_onward ctx below)
      (hs.trans henter) (hg.of_same rfl rfl rfl) hquiet
    have hleave : s1.Onward { s1 with depth := s1.depth - 1 } := .of_same rfl rfl rfl rfl
    exact hg2.recorded (honward.trans hleave) hnodes hlimit hneeds (hsymbols _ _ _) htyped

theorem resolveWithin_thorough (hL : Layout ctx root base s₀) (remaining : Nat) :
    Thorough ctx root s₀ (resolveWithin ctx remaining) := by
  refine resolveWithin_induction (fun remaining hbelow k expected s hs hk hg hquiet => ?_) remaining
  exact (resolveWithin_call ctx remaining k expected s).grounds hL hk hbelow hs hg hquiet

end ScriptTyping
