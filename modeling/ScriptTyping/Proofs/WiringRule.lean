import ScriptTyping.Proofs.Conditions

/-!
# The rule of wiring

Which scopes the children of a node read names in. The scopes for parameters and declarations
list their symbols and nothing else.
-/

namespace ScriptTyping

open Session Check

variable {ctx : Context} {root c i l r : NodeIndex} {base σ τ : Nat} {s s' s'' : Session}
  {ids : List SymbolId} {sc : NodeScopes}

namespace Session

/-- The node reads names in the scope. -/
def Placed (s : Session) (c : NodeIndex) (σ : ScopeId) : Prop :=
  ∃ inner, s.nodes.scopes? c = some ⟨σ, inner⟩

def place (s : Session) (i : NodeIndex) (sc : NodeScopes) : Session :=
  { s with nodes := s.nodes.set i (.wired sc) }

theorem place_grows (h : s.nodes.get? i = some .unresolved) : s.Grows (s.place i sc) := by
  refine ⟨.refl _, fun h => h, fun h => h, fun h => h, ?_, rfl, rfl, rfl, rfl, rfl⟩
  intro j sc' hj
  have hne : i ≠ j := by rintro rfl; simp [NodeStates.scopes?, h, NodeState.scopes?] at hj
  exact (NodeStates.scopes?_set_of_ne _ hne _).trans hj

theorem get?_place_self (h : s.nodes.get? i = some .unresolved) :
    (s.place i sc).nodes.get? i = some (.wired sc) :=
  NodeStates.get?_set_self h _

theorem get?_place_of_ne {j : NodeIndex} (h : i ≠ j) :
    (s.place i sc).nodes.get? j = s.nodes.get? j :=
  NodeStates.get?_set_of_ne _ h _

theorem scopes_of_wired (h : s.nodes.get? i = some (.wired sc)) : s.nodes.scopes? i = some sc := by
  simp [NodeStates.scopes?, h, NodeState.scopes?]

theorem Placed.mono (h : s.Placed c σ) (hs : s.Grows s') : s'.Placed c σ := by
  obtain ⟨inner, hc⟩ := h
  exact ⟨inner, hs.nodes hc⟩

end Session

/-- The scopes of a node's children, by the kind of the node. -/
def WiringRule (ctx : Context) (s : Session) (i : NodeIndex) (sc : NodeScopes) : NodeKind → Prop
  | .conditional condition thenBranch elseBranch =>
    ∃ gs ids τ, ctx.tree.Conjuncts condition gs ∧ Truths ctx.tree s gs ids ∧
      s.Narrows sc.scope τ ids ∧ sc.inner = openedFrom sc.scope τ ∧
      s.Placed condition sc.scope ∧ s.Placed thenBranch τ ∧ ∀ e ∈ elseBranch, s.Placed e sc.scope
  | .conjunction left right =>
    ∃ gs ids τ, ctx.tree.Conjuncts left gs ∧ Truths ctx.tree s gs ids ∧
      s.Narrows sc.scope τ ids ∧ sc.inner = openedFrom sc.scope τ ∧
      s.Placed left sc.scope ∧ s.Placed right τ
  | .lambda params body =>
    ∃ τ ids, sc.inner = some τ ∧ s.table.scope? τ = some ⟨some sc.scope, ids⟩ ∧
      ids.map s.table.symbol? =
        (parameterNames ctx params).zipIdx.map (fun p => some ⟨p.1, .parameter i p.2⟩) ∧
      (∀ a ∈ params.filterMap (·.ascription), s.Placed a sc.scope) ∧ s.Placed body τ
  | .block statements =>
    ∃ τ ids, sc.inner = some τ ∧ s.table.scope? τ = some ⟨some sc.scope, ids⟩ ∧
      (statements.filter ctx.tree.isDeclaration).map s.declared.get? = ids.map some ∧
      ∀ st ∈ statements, s.Placed st τ
  | .declaration _ _ ascription initializer =>
    sc.inner = none ∧ (∃ id, s.declared.get? i = some id) ∧
      (∀ a ∈ ascription, s.Placed a sc.scope) ∧ s.Placed initializer sc.scope
  | .typeTest operand target =>
    sc.inner = none ∧ s.Placed operand sc.scope ∧ s.Placed target sc.scope ∧
      ∀ name ids, ctx.tree.guardName? i = some name → s.truths.get? i = some ids →
        s.Narrowing sc.scope name i ids
  | kind => sc.inner = none ∧ ∀ c ∈ kind.children, s.Placed c sc.scope

theorem map_declared_congr {m m' : OrderedMap NodeIndex SymbolId} {ds : List NodeIndex}
    (h : ds.map m.get? = ids.map some)
    (hm : ∀ {d id}, m.get? d = some id → m'.get? d = some id) : ds.map m'.get? = ids.map some := by
  rw [← h]
  apply List.map_congr_left
  intro d hd
  have hmem : m.get? d ∈ ids.map some := h ▸ List.mem_map_of_mem hd
  obtain ⟨id, -, hid⟩ := List.mem_map.mp hmem
  rw [← hid, hm hid.symm]

theorem WiringRule.mono {kind : NodeKind} (h : WiringRule ctx s i sc kind) (hs : s.Grows s')
    (hwf : s.table.WellFormed) (hsc : sc.scope < s.table.scopes.size)
    (htruths : s'.truths.get? i = s.truths.get? i) : WiringRule ctx s' i sc kind := by
  cases kind with
  | conditional condition thenBranch elseBranch =>
    obtain ⟨gs, ids, τ, hgs, hids, hτ, hinner, hcond, hthen, helse⟩ := h
    exact ⟨gs, ids, τ, hgs, hids.mono hs, hτ.mono hs.table, hinner, hcond.mono hs, hthen.mono hs,
      fun e he => (helse e he).mono hs⟩
  | conjunction left right =>
    obtain ⟨gs, ids, τ, hgs, hids, hτ, hinner, hl, hr⟩ := h
    exact ⟨gs, ids, τ, hgs, hids.mono hs, hτ.mono hs.table, hinner, hl.mono hs, hr.mono hs⟩
  | lambda params body =>
    obtain ⟨τ, ids, hinner, hτ, hids, has, hbody⟩ := h
    refine ⟨τ, ids, hinner, hs.table.scope hτ, ?_, fun a ha => (has a ha).mono hs, hbody.mono hs⟩
    rw [← hids]
    apply List.map_congr_left
    intro id hid
    obtain ⟨sym, hsym⟩ := SymbolTable.exists_symbol (hwf.listed_lt hτ hid)
    rw [hsym, hs.table.symbol hsym]
  | block statements =>
    obtain ⟨τ, ids, hinner, hτ, hids, hst⟩ := h
    refine ⟨τ, ids, hinner, hs.table.scope hτ, ?_, fun st h => (hst st h).mono hs⟩
    exact map_declared_congr hids fun hd => hs.declared hd
  | declaration name isConst ascription initializer =>
    obtain ⟨hinner, ⟨id, hid⟩, has, hinit⟩ := h
    exact ⟨hinner, ⟨id, hs.declared hid⟩, fun a ha => (has a ha).mono hs, hinit.mono hs⟩
  | typeTest operand target =>
    obtain ⟨hinner, hoperand, htarget, hnarrow⟩ := h
    refine ⟨hinner, hoperand.mono hs, htarget.mono hs, ?_⟩
    intro name ids hname hids
    exact (hnarrow name ids hname (htruths ▸ hids)).mono hs.table hwf hsc
  | _ => exact ⟨h.1, fun c hc => (h.2 c hc).mono hs⟩

/-! ## New scopes for parameters and declarations -/

theorem Accounted.place (h : Accounted ctx root base s) (hi : s.nodes.get? i = some .unresolved) :
    Accounted ctx root base (s.place i sc) := by
  refine ⟨h.wf, h.base_le, h.source, ?_, h.narrowed, h.host, h.declared, h.truths, h.originals⟩
  intro id name l k hle hs
  obtain ⟨hl, σ, τ, ids, hscopes, hrest⟩ := h.parameter hle hs
  exact ⟨hl, σ, τ, ids, (place_grows hi).nodes hscopes, hrest⟩

/-- The table has parameters of the lambda `i` in addition, and they are `ids`. -/
structure AddsParameters (i : NodeIndex) (t t' : SymbolTable) (ids : List SymbolId) : Prop where
  extends_ : t.Extends t'
  scopes : t'.scopes = t.scopes
  wf : t'.WellFormed
  cases : ∀ {id : Nat} {sym}, t'.symbol? id = some sym →
    t.symbol? id = some sym ∨ id ∈ ids ∧ ∃ name k, sym = ⟨name, .parameter i k⟩
  listed : ∀ id ∈ ids, ∃ name k, t'.symbol? id = some ⟨name, .parameter i k⟩

theorem addParameters_spec {names : List String} {k : Nat} (hwf : s.table.WellFormed) :
    (addParameters i names k).After s fun ids s' => ∃ table, s' = { s with table := table } ∧
      AddsParameters i s.table table ids ∧
      ids.map table.symbol? =
        (names.zipIdx k).map (fun p => some ⟨p.1, .parameter i p.2⟩) := by
  induction names generalizing k s with
  | nil =>
    have hnil : AddsParameters i s.table s.table [] := ⟨.refl _, rfl, hwf, fun h => Or.inl h, by simp⟩
    exact ⟨s.table, rfl, hnil, rfl⟩
  | cons name names ih =>
    unfold addParameters
    simp only [after_bind, after_pure, addSymbol, after_modifyGet]
    have hext := SymbolTable.extends_addSymbol s.table ⟨name, .parameter i k⟩
    refine (ih (hwf.addSymbol _)).mono ?_
    rintro ids s' ⟨table, rfl, hadds, hids⟩
    have hfirst : table.symbol? s.table.symbols.size = some ⟨name, .parameter i k⟩ :=
      hadds.extends_.symbol (SymbolTable.symbol_addSymbol s.table _)
    refine ⟨table, rfl, ⟨hext.trans hadds.extends_, hadds.scopes, hadds.wf, ?_, ?_⟩, ?_⟩
    · intro id sym hsym
      rcases hadds.cases hsym with hsym | ⟨hid, hparam⟩
      · rcases SymbolTable.symbol_addSymbol_cases hsym with hold | ⟨rfl, hnew⟩
        · exact Or.inl hold
        · exact Or.inr ⟨List.mem_cons_self, name, k, hnew⟩
      · exact Or.inr ⟨List.mem_cons_of_mem _ hid, hparam⟩
    · intro id hid
      rcases List.mem_cons.mp hid with rfl | hid
      · exact ⟨name, k, hfirst⟩
      · exact hadds.listed id hid
    · simp only [List.map_cons, List.zipIdx_cons, hids, SymbolTable.addSymbol, hfirst]

theorem Accounted.openLambda (h : Accounted ctx root base s) (hi : s.nodes.get? i = some .unresolved)
    (hroot : ctx.tree.Reaches root i) (hσ : σ < s.table.scopes.size) {table : SymbolTable}
    (hadds : AddsParameters i s.table table ids) :
    Accounted ctx root base (Session.place { s with table := (table.addScope (some σ) ids).2 } i
      ⟨σ, some table.scopes.size⟩) := by
  have hσ' : σ < table.scopes.size := by rw [hadds.scopes]; exact hσ
  have hext := hadds.extends_.trans (SymbolTable.extends_addScope table (some σ) ids)
  have hids : ∀ id ∈ ids, id < table.symbols.size := by
    intro id hid
    obtain ⟨name, k, hsym⟩ := hadds.listed id hid
    exact SymbolTable.symbol_lt hsym
  have hwf := hadds.wf.addScope hσ' hids
  have hold : ∀ {id : Nat} {sym}, (table.addScope (some σ) ids).2.symbol? id = some sym →
      s.table.symbol? id = some sym ∨ id ∈ ids ∧ ∃ name k, sym = ⟨name, .parameter i k⟩ :=
    hadds.cases
  refine ⟨hwf, Nat.le_trans h.base_le hext.symbols_le, ?_, ?_, ?_, ?_, ?_, ?_, ?_⟩
  · intro id name d c hle hs
    rcases hold hs with hs | ⟨-, name', k, hnew⟩
    · exact h.source hle hs
    · cases hnew
  · intro id name l k hle hs
    rcases hold hs with hs | ⟨hid, name', k', hnew⟩
    · obtain ⟨hl, σ', τ, ids', hscopes, hscope, hid⟩ := h.parameter hle hs
      exact ⟨hl, σ', τ, ids', (place_grows hi).nodes hscopes, hext.scope hscope, hid⟩
    · cases hnew
      exact ⟨hroot, σ, table.scopes.size, ids, scopes_of_wired (get?_place_self hi),
        SymbolTable.scope_addScope _ _ _, hid⟩
  · intro id o name g hle hs
    rcases hold hs with hs | ⟨-, name', k, hnew⟩
    · exact h.narrowed hle hs
    · cases hnew
  · intro id name ty c hle hs
    rcases hold hs with hs | ⟨-, name', k, hnew⟩
    · exact h.host hle hs
    · cases hnew
  · intro d id hd
    obtain ⟨hr, hle, name, c, a, ini, hk, hs⟩ := h.declared hd
    exact ⟨hr, hle, name, c, a, ini, hk, hext.symbol hs⟩
  · intro g ids' hg
    refine ⟨(h.truths hg).1, fun name hname id hid => ?_⟩
    obtain ⟨o, hs⟩ := (h.truths hg).2 name hname id hid
    exact ⟨o, hext.symbol hs⟩
  · intro τ id o name g hle hs hsees
    have hs' : s.table.symbol? id = some ⟨name, .narrowed o g⟩ := by
      rcases hold hs with hs | ⟨-, name', k, hnew⟩
      · exact hs
      · cases hnew
    change (table.addScope (some σ) ids).2.Sees τ id at hsees
    change (table.addScope (some σ) ids).2.Sees τ o
    obtain ⟨data, hd⟩ := SymbolTable.exists_scope hsees.scope_lt
    rcases SymbolTable.scope_addScope_cases hd with hold' | ⟨rfl, rfl⟩
    · have hτ : τ < s.table.scopes.size := hadds.scopes ▸ SymbolTable.scope_lt hold'
      rw [hext.sees_iff h.wf hwf hτ] at hsees ⊢
      exact h.originals hle hs' hsees
    · rw [SymbolTable.sees_iff hwf hd] at hsees ⊢
      rcases hsees with hid | ⟨p, hp, hsees⟩
      · obtain ⟨name', k, hsym⟩ := hadds.listed id hid
        rw [show table.symbol? id = _ from hs] at hsym
        cases hsym
      · cases hp
        rw [hext.sees_iff h.wf hwf hσ] at hsees
        exact Or.inr ⟨σ, rfl, (hext.sees_iff h.wf hwf hσ).mpr (h.originals hle hs' hsees)⟩

theorem grows_declare (name : String) (isConst : Bool) (h : s.declared.get? i = none) :
    s.Grows { s with
      table := (s.table.addSymbol ⟨name, .source i isConst⟩).2
      declared := s.declared.insert i s.table.symbols.size } := by
  refine ⟨SymbolTable.extends_addSymbol _ _, ?_, fun h => h, fun h => h, fun h => h,
    rfl, rfl, rfl, rfl, rfl⟩
  intro e id he
  have hne : i ≠ e := by rintro rfl; simp [h] at he
  exact (OrderedMap.get?_insert_of_ne _ hne _).trans he

theorem declareStatements_spec {statements : List NodeIndex} (h : Accounted ctx root base s)
    (hroot : ∀ d ∈ statements, ctx.tree.Reaches root d) (hnodup : statements.Nodup)
    (hfresh : ∀ d ∈ statements, s.declared.get? d = none) :
    (declareStatements ctx statements).After s fun ids s' => ∃ table declared,
      s' = { s with table := table, declared := declared } ∧ s.Grows s' ∧
      table.scopes = s.table.scopes ∧ Accounted ctx root base s' ∧
      (statements.filter ctx.tree.isDeclaration).map declared.get? = ids.map some ∧
      ∀ n, n ∉ statements → declared.get? n = s.declared.get? n := by
  induction statements generalizing s with
  | nil => exact ⟨s.table, s.declared, rfl, .refl s, rfl, h, rfl, fun _ _ => rfl⟩
  | cons d rest ih =>
    obtain ⟨hd, hnodup⟩ := List.nodup_cons.mp hnodup
    have hroot' : ∀ e ∈ rest, ctx.tree.Reaches root e := fun e he => hroot e (by simp [he])
    unfold declareStatements
    split
    · rename_i name isConst ascription initializer hk
      have hdecl : ctx.tree.isDeclaration d = true := Tree.isDeclaration_iff.mpr ⟨_, _, _, _, hk⟩
      have hnone : s.declared.get? d = none := hfresh d (by simp)
      simp only [after_bind, declare, addSymbol, after_modifyGet, after_modify, after_pure]
      refine (ih (h.declare (hroot d (by simp)) hk hnone) hroot' hnodup ?_).mono ?_
      · intro e he
        have hne : d ≠ e := by rintro rfl; exact hd he
        exact (OrderedMap.get?_insert_of_ne _ hne _).trans (hfresh e (by simp [he]))
      · rintro ids s' ⟨table, declared, rfl, hgrows', hscopes, hacc, hids, hframe⟩
        refine ⟨table, declared, rfl, (grows_declare _ _ hnone).trans hgrows', hscopes, hacc, ?_, ?_⟩
        · rw [List.filter_cons_of_pos hdecl, List.map_cons, List.map_cons, hids]
          rw [show declared.get? d = _ from hgrows'.declared (OrderedMap.get?_insert_self _ _ _)]
          rfl
        · intro n hn
          simp only [List.mem_cons, not_or] at hn
          exact (hframe n hn.2).trans (OrderedMap.get?_insert_of_ne _ (Ne.symm hn.1) _)
    · rename_i hkind
      have hdecl : ¬ ctx.tree.isDeclaration d = true := fun hdecl => by
        obtain ⟨name, isConst, ascription, initializer, hk⟩ := Tree.isDeclaration_iff.mp hdecl
        exact hkind name isConst ascription initializer hk
      refine (ih h hroot' hnodup fun e he => hfresh e (by simp [he])).mono ?_
      rintro ids s' ⟨table, declared, rfl, hgrows, hscopes, hacc, hids, hframe⟩
      refine ⟨table, declared, rfl, hgrows, hscopes, hacc, ?_, ?_⟩
      · rwa [List.filter_cons_of_neg hdecl]
      · intro n hn
        simp only [List.mem_cons, not_or] at hn
        exact hframe n hn.2

end ScriptTyping
