import ScriptTyping.Proofs.LexicalScoping
import ScriptTyping.Proofs.Trace

/-!
# Progress of the second phase

A node is resolved once, with everything below it, but not always in the order of the tree: a name
asks for its declaration first. What keeps this in order is that a declaration that is neither
recorded nor in progress has nothing open below it, and that such a declaration is never above the
node that asks.
-/

namespace ScriptTyping

open Session Check

variable {ctx : Context} {root c d i k l m n : NodeIndex} {base id : Nat} {wanted : Option Ty}
  {s₀ s s' s'' : Session} {ty : Ty}

/-! ## What the first phase has left -/

structure Layout (ctx : Context) (root : NodeIndex) (base : Nat) (s₀ : Session) : Prop where
  proper : ctx.tree.Proper root
  types : ctx.tree.TypesInPlace root
  accounted : Accounted ctx root base s₀
  hosts : ∀ {id : Nat} {sym}, id < base → s₀.table.symbol? id = some sym →
    ∃ ty c, sym.origin = .host ty c
  wired : ∀ {n}, ctx.tree.Reaches root n → WiredAt ctx s₀ n
  outside : ∀ {n}, ¬ ctx.tree.Reaches root n → s₀.nodes.scopes? n = none
  sees : ∀ {n sc} {id : Nat} {name origin}, ctx.tree.Reaches root n →
    s₀.nodes.scopes? n = some sc → base ≤ id → s₀.table.symbol? id = some ⟨name, origin⟩ →
    (s₀.table.Sees sc.scope id ↔ ctx.tree.VisibleAt root origin n)
  untyped : ∀ id, s₀.symbolTypes.get? id = none

namespace Layout

variable {name : String} {origin : Origin}

theorem base_le (h : Layout ctx root base s₀) (hsym : s₀.table.symbol? id = some ⟨name, origin⟩)
    (hne : ∀ ty c, origin ≠ .host ty c) : base ≤ id := by
  by_contra hlt
  obtain ⟨ty, c, horigin⟩ := h.hosts (by omega) hsym
  exact hne ty c horigin

theorem above_of_visible (h : Layout ctx root base s₀) {isConst : Bool} {x : NodeIndex}
    (hvis : ctx.tree.VisibleAt root (.source d isConst) n) (hx : ctx.tree.Reaches root x)
    (hxd : ctx.tree.Above x d) : ctx.tree.Above x n := by
  obtain ⟨b, statements, hb, hk, hd, habove⟩ := hvis
  have hbd : ctx.tree.Child b d := (Tree.child_of_kind hk).mpr hd
  rcases h.proper.above_of_child hb hbd hx hxd with rfl | hxb
  · exact habove
  · exact hxb.trans habove

theorem above_of_parameter {j : Nat} (hvis : ctx.tree.VisibleAt root (.parameter l j) n) :
    ctx.tree.Above l n := by
  obtain ⟨params, body, -, hk, hn⟩ := hvis
  have hbody : ctx.tree.Child l body := (Tree.child_of_kind hk).mpr (by simp [NodeKind.children])
  exact hbody.above.trans_reaches hn

theorem rule (h : Layout ctx root base s₀) (hn : ctx.tree.Reaches root n) {sc : NodeScopes}
    {kind : NodeKind} (hsc : s₀.nodes.scopes? n = some sc) (hk : ctx.tree.kind? n = some kind) :
    WiringRule ctx s₀ n sc kind := by
  obtain ⟨sc', kind', hwired, -, hk', hrule⟩ := h.wired hn
  rw [hk] at hk'
  cases hk'
  rw [scopes_of_wired hwired] at hsc
  cases hsc
  exact hrule

theorem unresolved (h : Layout ctx root base s₀) (hn : ctx.tree.Reaches root n) :
    s₀.nodes.resolution? n = none := by
  obtain ⟨sc, kind, hwired, -⟩ := h.wired hn
  simp [NodeStates.resolution?, hwired, NodeState.resolution?]

theorem source (h : Layout ctx root base s₀) {isConst : Bool}
    (hsym : s₀.table.symbol? id = some ⟨name, .source d isConst⟩) :
    ctx.tree.Reaches root d ∧ s₀.declared.get? d = some id ∧ ∃ ascription initializer,
      ctx.tree.kind? d = some (.declaration name isConst ascription initializer) := by
  have hdeclared := h.accounted.source (h.base_le hsym (by simp)) hsym
  obtain ⟨hroot, -, name', c', ascription, initializer, hk, hsym'⟩ := h.accounted.declared hdeclared
  rw [hsym] at hsym'
  cases hsym'
  exact ⟨hroot, hdeclared, ascription, initializer, hk⟩

theorem not_declaration_of_parameter (h : Layout ctx root base s₀) {j : Nat}
    (hsym : s₀.table.symbol? id = some ⟨name, .parameter l j⟩) :
    ctx.tree.isDeclaration l = false := by
  obtain ⟨hl, σ, τ, ids, hsc, -⟩ := h.accounted.parameter (h.base_le hsym (by simp)) hsym
  obtain ⟨sc, kind, hwired, -, hk, hrule⟩ := h.wired hl
  rw [scopes_of_wired hwired] at hsc
  cases hsc
  cases kind with
  | declaration name isConst ascription initializer => simp [WiringRule] at hrule
  | _ => simp [Tree.isDeclaration, hk, NodeKind.isDeclaration]

end Layout

/-! ## Sessions of the second phase -/

namespace Session

def Recorded (s : Session) (n : NodeIndex) : Prop := ∃ r, s.nodes.resolution? n = some r

/-- The declaration is resolved, or on its way. -/
def Settled (s : Session) (d : NodeIndex) : Prop := s.Recorded d ∨ d ∈ s.inProgress

end Session

/-- Nothing that was found out is taken back. Without diagnostics the new findings are a trace. -/
structure Later (ctx : Context) (root : NodeIndex) (wanted : Option Ty) (s s' : Session) :
    Prop where
  table : s'.table = s.table
  declared : s'.declared = s.declared
  scopes : ∀ i, s'.nodes.scopes? i = s.nodes.scopes? i
  resolution : ∀ {n r}, s.nodes.resolution? n = some r → s'.nodes.resolution? n = some r
  symbolType : ∀ {id name origin ty}, s.table.symbol? id = some ⟨name, origin⟩ →
    (∀ o g, origin ≠ .narrowed o g) → s.symbolTypes.get? id = some ty →
    s'.symbolTypes.get? id = some ty
  diagnostics : ∃ more, s'.diagnostics = s.diagnostics ++ more
  limit : s'.depthExceeded = true → s.depthExceeded = true ∨ s'.diagnostics ≠ []
  trace : s'.diagnostics = [] → Findings.Trace ctx root wanted s.findings s'.findings

namespace Later

theorem refl (s : Session) : Later ctx root wanted s s :=
  ⟨rfl, rfl, fun _ => rfl, fun h => h, fun _ _ h => h, ⟨[], by simp⟩, fun h => Or.inl h,
    fun _ => Relation.ReflTransGen.refl⟩

theorem clean (h : Later ctx root wanted s s') (hs' : s'.diagnostics = []) :
    s.diagnostics = [] := by
  obtain ⟨more, hmore⟩ := h.diagnostics
  rw [hs'] at hmore
  exact (List.append_eq_nil_iff.mp hmore.symm).1

theorem trans (h : Later ctx root wanted s s') (h' : Later ctx root wanted s' s'') :
    Later ctx root wanted s s'' := by
  refine ⟨h'.table.trans h.table, h'.declared.trans h.declared,
    fun i => (h'.scopes i).trans (h.scopes i), fun hr => h'.resolution (h.resolution hr), ?_, ?_, ?_,
    fun hclean => (h.trace (h'.clean hclean)).trans (h'.trace hclean)⟩
  · intro id name origin ty hsym hne hty
    exact h'.symbolType (h.table ▸ hsym) hne (h.symbolType hsym hne hty)
  · obtain ⟨more, hmore⟩ := h.diagnostics
    obtain ⟨more', hmore'⟩ := h'.diagnostics
    exact ⟨more ++ more', by rw [hmore', hmore, List.append_assoc]⟩
  · intro hlimit
    rcases h'.limit hlimit with hlimit | hne
    · rcases h.limit hlimit with hlimit | hne
      · exact Or.inl hlimit
      · exact Or.inr fun hnil => hne (h'.clean hnil)
    · exact Or.inr hne

theorem recorded (h : Later ctx root wanted s s') (hn : s.Recorded n) : s'.Recorded n := by
  obtain ⟨r, hr⟩ := hn
  exact ⟨r, h.resolution hr⟩

theorem type (h : Later ctx root wanted s s') (hn : s.findings.type? n = some ty) :
    s'.findings.type? n = some ty := by
  obtain ⟨r, hr, hty⟩ := Findings.type?_eq_some.mp hn
  exact Findings.type?_eq_some.mpr ⟨r, h.resolution hr, hty⟩

theorem settled (h : Later ctx root wanted s s') (hp : s'.inProgress = s.inProgress)
    (hd : s.Settled d) : s'.Settled d :=
  hd.imp h.recorded fun hmem => hp ▸ hmem

end Later

/-- What holds of a session between two resolutions. -/
structure Held (ctx : Context) (root : NodeIndex) (wanted : Option Ty) (s₀ s : Session) :
    Prop where
  later : Later ctx root wanted s₀ s
  limit : s.depthExceeded = true → s.diagnostics ≠ []
  ancestors : ∀ {x d}, x ∈ s.inProgress → ctx.tree.Reaches root d →
    ctx.tree.isDeclaration d = true → ctx.tree.Above d x → s.Settled d
  sources : ∀ {id name d c}, s.table.symbol? id = some ⟨name, .source d c⟩ →
    s.symbolTypes.get? id ≠ none → s.Recorded d
  params : ∀ {id name l j}, s.table.symbol? id = some ⟨name, .parameter l j⟩ →
    s.symbolTypes.get? id ≠ none → s.Recorded l ∨
      ∀ {d}, ctx.tree.Reaches root d → ctx.tree.isDeclaration d = true → ctx.tree.Above d l →
        s.Settled d

/-- A node that can be resolved now. -/
structure Ready (ctx : Context) (root : NodeIndex) (s : Session) (k : NodeIndex) : Prop where
  ancestors : ∀ {d}, ctx.tree.Reaches root d → ctx.tree.isDeclaration d = true →
    ctx.tree.Above d k → s.Settled d
  below : ∀ {x}, x ∈ s.inProgress → ¬ ctx.tree.Reaches k x
  params : ∀ {id name l j}, s.table.symbol? id = some ⟨name, .parameter l j⟩ →
    ctx.tree.Reaches k l → ¬ s.Recorded l → s.symbolTypes.get? id = none

/-- A node whose children can be resolved now. -/
structure Busy (ctx : Context) (root : NodeIndex) (s : Session) (i : NodeIndex) : Prop where
  ancestors : ∀ {d}, ctx.tree.Reaches root d → ctx.tree.isDeclaration d = true →
    ctx.tree.Reaches d i → s.Settled d
  below : ∀ {x}, x ∈ s.inProgress → ¬ ctx.tree.Above i x
  params : ∀ {id name l j}, s.table.symbol? id = some ⟨name, .parameter l j⟩ →
    ctx.tree.Above i l → ¬ s.Recorded l → s.symbolTypes.get? id = none

/-! ## What a resolution changes -/

/-- The nodes, other than `i` itself, that may be recorded while `i` is resolved. A type reference
resolves only what is below it. -/
def Within (ctx : Context) (root : NodeIndex) (s : Session) (i m : NodeIndex) : Prop :=
  ctx.tree.Above i m ∨ ctx.tree.isTypeRef i = false ∧ (ctx.tree.isTypeRef m = true ∨
    ∃ e, ctx.tree.Reaches root e ∧ ctx.tree.isDeclaration e = true ∧ ctx.tree.Reaches e m ∧
      ¬ s.Settled e)

/-- What changes while `i` is resolved, before `i` itself is recorded. -/
structure Framed (ctx : Context) (root : NodeIndex) (wanted : Option Ty) (i : NodeIndex)
    (s s' : Session) : Prop where
  later : Later ctx root wanted s s'
  inProgress : s'.inProgress = s.inProgress
  depth : s'.depth = s.depth
  nodes : ∀ {m}, s'.Recorded m → s.Recorded m ∨ Within ctx root s i m
  params : ∀ {id name l j}, s.table.symbol? id = some ⟨name, .parameter l j⟩ →
    s'.symbolTypes.get? id ≠ none → s.symbolTypes.get? id ≠ none ∨ s'.Recorded l ∨
      ctx.tree.isTypeRef i = false ∧ ctx.tree.Reaches l i ∧ (s'.diagnostics = [] → l = i)

/-- The same between two children of `i`. -/
structure Progress (ctx : Context) (root : NodeIndex) (wanted : Option Ty) (i : NodeIndex)
    (s s' : Session) : Prop
    extends Framed ctx root wanted i s s' where
  sources : ∀ {id name d c}, s.table.symbol? id = some ⟨name, .source d c⟩ →
    s'.symbolTypes.get? id ≠ none → s.symbolTypes.get? id ≠ none ∨ s'.Recorded d

/-- The same when the type and binding of `i` are found: a declaration has given its symbol its
type. Without diagnostics the rule of typing is satisfied. -/
structure Answer (ctx : Context) (root : NodeIndex) (wanted : Option Ty) (i : NodeIndex)
    (scopes : NodeScopes) (kind : NodeKind) (s : Session) (found : Ty × Binding) (s' : Session) : Prop
    extends Framed ctx root wanted i s s' where
  sources : ∀ {id name d c}, s.table.symbol? id = some ⟨name, .source d c⟩ →
    s'.symbolTypes.get? id ≠ none → s.symbolTypes.get? id ≠ none ∨ s'.Recorded d ∨ d = i
  unrecorded : ¬ s'.Recorded i
  rule : s'.diagnostics = [] →
    s'.findings.TypingRule ctx i ⟨scopes, found.1, found.2⟩ kind
  binds : s'.diagnostics = [] → s'.findings.BindsTyped i found.2 kind

/-- What a resolution of `k` leaves behind. -/
structure Outcome (ctx : Context) (root : NodeIndex) (wanted : Option Ty) (s₀ : Session)
    (k : NodeIndex) (s : Session) (ty : Ty) (s' : Session) : Prop where
  later : Later ctx root wanted s s'
  inProgress : s'.inProgress = s.inProgress
  depth : s'.depth = s.depth
  nodes : ∀ {m}, s'.Recorded m → s.Recorded m ∨ m = k ∨ Within ctx root s k m
  sources : ∀ {id name d c}, s.table.symbol? id = some ⟨name, .source d c⟩ →
    s'.symbolTypes.get? id ≠ none → s.symbolTypes.get? id ≠ none ∨ s'.Recorded d
  params : ∀ {id name l j}, s.table.symbol? id = some ⟨name, .parameter l j⟩ →
    s'.symbolTypes.get? id ≠ none → s.symbolTypes.get? id ≠ none ∨ s'.Recorded l ∨
      ctx.tree.isTypeRef k = false ∧ ctx.tree.Above l k ∧ s'.diagnostics ≠ []
  held : Held ctx root wanted s₀ s'
  recorded : s'.findings.type? k = some ty
  again : s.Recorded k → s' = s

/-- The type that a resolver is given is the one expected of the node, while nothing is reported. -/
def Session.Awaits (ctx : Context) (root : NodeIndex) (wanted : Option Ty) (s : Session)
    (k : NodeIndex) (expected : Option Ty) : Prop :=
  s.diagnostics = [] → ∀ t, expected = some t → s.findings.Expects ctx root wanted k t

/-- What is asked of a resolver. -/
def Resolves (ctx : Context) (root : NodeIndex) (wanted : Option Ty) (s₀ : Session)
    (resolve : Resolver) : Prop :=
  ∀ {k expected s}, Held ctx root wanted s₀ s → ctx.tree.Reaches root k →
    (s.Recorded k ∨ ctx.tree.isTypeRef k = true ∨ Ready ctx root s k) →
    s.Awaits ctx root wanted k expected →
    (resolve k expected).After s (Outcome ctx root wanted s₀ k s)

namespace Session.Awaits

variable {expected asked : Option Ty} {kind : NodeKind}

protected theorem none : s.Awaits ctx root wanted k none := fun _ _ h => by cases h

theorem later (he : s.Awaits ctx root wanted k expected) (h : Later ctx root wanted s s') :
    s'.Awaits ctx root wanted k expected :=
  fun hclean t ht => (he (h.clean hclean) t ht).mono h.type

/-- With a diagnostic anything may be expected. -/
theorem of_reported (h : s.diagnostics ≠ []) : s.Awaits ctx root wanted k expected :=
  fun hclean => absurd hclean h

theorem child (he : s.Awaits ctx root wanted i expected) (hi : ctx.tree.Reaches root i)
    (hk : ctx.tree.kind? i = some kind)
    (h : s.diagnostics = [] → ∀ t, asked = some t → s.findings.Asks ctx expected c t kind) :
    s.Awaits ctx root wanted c asked :=
  fun hclean t ht => .child hi hk (he hclean) (h hclean t ht)

end Session.Awaits

theorem Within.mono (h : Within ctx root s' i m) (hd : ∀ {d}, s.Settled d → s'.Settled d) :
    Within ctx root s i m := by
  rcases h with habove | ⟨htype, href | ⟨e, he, hdecl, hem, hnot⟩⟩
  · exact Or.inl habove
  · exact Or.inr ⟨htype, Or.inl href⟩
  · exact Or.inr ⟨htype, Or.inr ⟨e, he, hdecl, hem, fun hs => hnot (hd hs)⟩⟩

theorem Within.irrefl (h : Within ctx root s i i) (hp : ctx.tree.Proper root)
    (hi : ctx.tree.Reaches root i)
    (hsettled : ctx.tree.isTypeRef i = true ∨ ∀ {d}, ctx.tree.Reaches root d →
      ctx.tree.isDeclaration d = true → ctx.tree.Reaches d i → s.Settled d) : False := by
  rcases h with habove | ⟨htype, href | ⟨e, he, hdecl, hei, hunsettled⟩⟩
  · exact hp.acyclic hi habove
  · simp [htype] at href
  · exact hunsettled (hsettled.resolve_left (by simp [htype]) he hdecl hei)

namespace Framed

theorem refl (i : NodeIndex) (s : Session) : Framed ctx root wanted i s s :=
  ⟨.refl s, rfl, rfl, fun h => Or.inl h, fun _ h => Or.inl h⟩

theorem trans (h : Framed ctx root wanted i s s') (h' : Framed ctx root wanted i s' s'') :
    Framed ctx root wanted i s s'' := by
  refine ⟨h.later.trans h'.later, h'.inProgress.trans h.inProgress, h'.depth.trans h.depth, ?_, ?_⟩
  · intro m hm
    rcases h'.nodes hm with hm | hwithin
    · exact h.nodes hm
    · exact Or.inr (hwithin.mono fun hd => h.later.settled h.inProgress hd)
  · intro id name l j hsym hset
    rcases h'.params (h.later.table ▸ hsym) hset with hset | hrec | hl
    · rcases h.params hsym hset with hset | hrec | ⟨htype, hl, hself⟩
      · exact Or.inl hset
      · exact Or.inr (Or.inl (h'.later.recorded hrec))
      · exact Or.inr (Or.inr ⟨htype, hl, fun hclean => hself (h'.later.clean hclean)⟩)
    · exact Or.inr (Or.inl hrec)
    · exact Or.inr (Or.inr hl)

theorem not_recorded (h : Framed ctx root wanted i s s') (hp : ctx.tree.Proper root)
    (hi : ctx.tree.Reaches root i) (hb : ctx.tree.isTypeRef i = true ∨ Busy ctx root s i)
    (hnot : ¬ s.Recorded i) : ¬ s'.Recorded i := by
  intro hrec
  rcases h.nodes hrec with hrec | hwithin
  · exact hnot hrec
  · exact hwithin.irrefl hp hi (hb.imp_right fun hb => hb.ancestors)

end Framed

theorem Progress.refl (i : NodeIndex) (s : Session) : Progress ctx root wanted i s s :=
  ⟨.refl i s, fun _ h => Or.inl h⟩

theorem Progress.trans (h : Progress ctx root wanted i s s')
    (h' : Progress ctx root wanted i s' s'') : Progress ctx root wanted i s s'' := by
  refine ⟨h.toFramed.trans h'.toFramed, ?_⟩
  intro id name d c hsym hset
  rcases h'.sources (h.later.table ▸ hsym) hset with hset | hrec
  · exact (h.sources hsym hset).imp_right h'.later.recorded
  · exact Or.inr hrec

/-! ## Holding on -/

theorem Held.step (h : Held ctx root wanted s₀ s) (hlater : Later ctx root wanted s s')
    (hprogress : s'.inProgress = s.inProgress)
    (hsources : ∀ {id name d c}, s.table.symbol? id = some ⟨name, .source d c⟩ →
      s'.symbolTypes.get? id ≠ none → s.symbolTypes.get? id ≠ none ∨ s'.Recorded d)
    (hparams : ∀ {id name l j}, s.table.symbol? id = some ⟨name, .parameter l j⟩ →
      s'.symbolTypes.get? id ≠ none → s.symbolTypes.get? id ≠ none ∨ s'.Recorded l ∨
        ∀ {d}, ctx.tree.Reaches root d → ctx.tree.isDeclaration d = true → ctx.tree.Above d l →
          s.Settled d) : Held ctx root wanted s₀ s' := by
  have hsettled : ∀ {d}, s.Settled d → s'.Settled d := hlater.settled hprogress
  refine ⟨h.later.trans hlater, ?_, ?_, ?_, ?_⟩
  · intro hlimit hnil
    rcases hlater.limit hlimit with hlimit | hne
    · exact h.limit hlimit (hlater.clean hnil)
    · exact hne hnil
  · intro x d hx hd hdecl habove
    exact hsettled (h.ancestors (hprogress ▸ hx) hd hdecl habove)
  · intro id name d c hsym hset
    rw [hlater.table] at hsym
    rcases hsources hsym hset with hset | hrec
    · exact hlater.recorded (h.sources hsym hset)
    · exact hrec
  · intro id name l j hsym hset
    rw [hlater.table] at hsym
    rcases hparams hsym hset with hset | hrec | hopen
    · rcases h.params hsym hset with hrec | hopen
      · exact Or.inl (hlater.recorded hrec)
      · exact Or.inr fun hd hdecl habove => hsettled (hopen hd hdecl habove)
    · exact Or.inl hrec
    · exact Or.inr fun hd hdecl habove => hsettled (hopen hd hdecl habove)

theorem Held.progress (h : Held ctx root wanted s₀ s) (hp : Progress ctx root wanted i s s')
    (hb : ctx.tree.isTypeRef i = true ∨ Busy ctx root s i) : Held ctx root wanted s₀ s' := by
  refine h.step hp.later hp.inProgress hp.sources ?_
  intro id name l j hsym hset
  rcases hp.params hsym hset with hset | hrec | ⟨htype, hli, -⟩
  · exact Or.inl hset
  · exact Or.inr (Or.inl hrec)
  · rcases hb with hb | hb
    · simp [htype] at hb
    · exact Or.inr (Or.inr fun hd hdecl habove => hb.ancestors hd hdecl (habove.trans_reaches hli).reaches)

theorem Ready.busy (h : Ready ctx root s i) (hdecl : ctx.tree.isDeclaration i = false) :
    Busy ctx root s i := by
  refine ⟨?_, fun hx habove => h.below hx habove.reaches,
    fun hsym habove hnot => h.params hsym habove.reaches hnot⟩
  intro d hd hdecl' hdi
  rcases hdi.eq_or_above with rfl | habove
  · simp [hdecl] at hdecl'
  · exact h.ancestors hd hdecl' habove

/-! ## Visiting the children of a node -/

/-- A node is being resolved, in the session `s` at first. -/
structure Resolving (ctx : Context) (root : NodeIndex) (base : Nat) (wanted : Option Ty)
    (s₀ : Session) (resolve : Resolver) (i : NodeIndex) (s : Session) : Prop where
  layout : Layout ctx root base s₀
  resolver : Resolves ctx root wanted s₀ resolve
  held : Held ctx root wanted s₀ s
  reaches : ctx.tree.Reaches root i
  busy : ctx.tree.isTypeRef i = true ∨ Busy ctx root s i

theorem Outcome.progress (h : Outcome ctx root wanted s₀ c s ty s') (hL : Layout ctx root base s₀)
    (hi : ctx.tree.Reaches root i) (hc : ctx.tree.Child i c) : Progress ctx root wanted i s s' := by
  have htype : ctx.tree.isTypeRef c = false → ctx.tree.isTypeRef i = false := by
    intro hcf
    by_contra hif
    rw [Bool.not_eq_false] at hif
    simp [hL.types.child hi hif hc] at hcf
  refine ⟨⟨h.later, h.inProgress, h.depth, ?_, ?_⟩, h.sources⟩
  · intro m hm
    rcases h.nodes hm with hm | rfl | habove | ⟨hcf, hrest⟩
    · exact Or.inl hm
    · exact Or.inr (Or.inl hc.above)
    · exact Or.inr (Or.inl (hc.above.trans habove))
    · exact Or.inr (Or.inr ⟨htype hcf, hrest⟩)
  · intro id name l j hsym hset
    rcases h.params hsym hset with hset | hrec | ⟨hcf, habove, hdirty⟩
    · exact Or.inl hset
    · exact Or.inr (Or.inl hrec)
    · have hsym₀ : s₀.table.symbol? id = some ⟨name, .parameter l j⟩ := by
        rw [← h.held.later.table, h.later.table]
        exact hsym
      obtain ⟨hl, -⟩ := hL.accounted.parameter (hL.base_le hsym₀ (by simp)) hsym₀
      refine Or.inr (Or.inr ⟨htype hcf, ?_, fun hclean => absurd hclean hdirty⟩)
      exact hL.proper.reaches_parent hl hi hc habove

namespace Resolving

variable {resolve : Resolver} (h : Resolving ctx root base wanted s₀ resolve i s)

include h

theorem child_ready (hp : Progress ctx root wanted i s s') (hc : ctx.tree.Child i c) :
    s'.Recorded c ∨ ctx.tree.isTypeRef c = true ∨ Ready ctx root s' c := by
  rcases h.busy with htype | hb
  · exact Or.inr (Or.inl (h.layout.types.child h.reaches htype hc))
  · refine Or.inr (Or.inr ⟨?_, ?_, ?_⟩)
    · intro d hd hdecl habove
      refine hp.later.settled hp.inProgress (hb.ancestors hd hdecl ?_)
      exact h.layout.proper.reaches_parent hd h.reaches hc habove
    · intro x hx hcx
      exact hb.below (hp.inProgress ▸ hx) (hc.above.trans_reaches hcx)
    · intro id name l j hsym hcl hnot
      rw [hp.later.table] at hsym
      have hil : ctx.tree.Above i l := hc.above.trans_reaches hcl
      by_contra hset
      rcases hp.params hsym hset with hset | hrec | ⟨-, hli, -⟩
      · exact hset (hb.params hsym hil fun hrec => hnot (hp.later.recorded hrec))
      · exact hnot hrec
      · exact h.layout.proper.not_reaches_of_above h.reaches hil hli

theorem held_after (hp : Progress ctx root wanted i s s') : Held ctx root wanted s₀ s' :=
  h.held.progress hp h.busy

theorem unrecorded (hp : Progress ctx root wanted i s s') (hnot : ¬ s.Recorded i) :
    ¬ s'.Recorded i :=
  hp.not_recorded h.layout.proper h.reaches h.busy hnot

theorem visit (hp : Progress ctx root wanted i s s') (hc : ctx.tree.Child i c)
    {expected : Option Ty} (he : s'.Awaits ctx root wanted c expected) :
    (resolve c expected).After s' fun ty s'' => Progress ctx root wanted i s s'' ∧
      Later ctx root wanted s' s'' ∧ s''.findings.type? c = some ty := by
  refine (h.resolver (h.held_after hp) (h.reaches.tail hc) (h.child_ready hp hc) he).mono ?_
  intro ty s'' hout
  exact ⟨hp.trans (hout.progress h.layout h.reaches hc), hout.later, hout.recorded⟩

end Resolving

/-! ## Reporting -/

@[simp] theorem Check.after_report {span : Span} {m : Message} {args : List String}
    (Q : Unit → Session → Prop) : (report span m args).After s Q ↔
      Q () { s with diagnostics := s.diagnostics ++ [.ofMessage span m args] } := Iff.rfl

@[simp] theorem Check.after_reportAt {m : Message} {args : List String}
    (Q : Unit → Session → Prop) : (reportAt ctx i m args).After s Q ↔
      Q () { s with diagnostics := s.diagnostics ++ [.ofMessage (ctx.tree.span i) m args] } :=
  Iff.rfl

@[simp] theorem Check.after_setSymbolType (Q : Unit → Session → Prop) :
    (setSymbolType id ty).After s Q ↔ Q () { s with symbolTypes := s.symbolTypes.insert id ty } :=
  Iff.rfl

theorem Later.report (s : Session) (d : Diagnostic) :
    Later ctx root wanted s { s with diagnostics := s.diagnostics ++ [d] } :=
  ⟨rfl, rfl, fun _ => rfl, fun h => h, fun _ _ h => h, ⟨[d], rfl⟩, fun h => Or.inl h, by simp⟩

theorem Progress.report (h : Progress ctx root wanted i s s') (d : Diagnostic) :
    Progress ctx root wanted i s { s' with diagnostics := s'.diagnostics ++ [d] } :=
  h.trans ⟨⟨.report s' d, rfl, rfl, fun h => Or.inl h, fun _ h => Or.inl h⟩, fun _ h => Or.inl h⟩

/-! ## Answers -/

namespace Resolving

variable {resolve : Resolver} (h : Resolving ctx root base wanted s₀ resolve i s)
  {scopes : NodeScopes} {kind : NodeKind} {found : Ty × Binding}

include h

theorem answer (hnot : ¬ s.Recorded i) (hp : Progress ctx root wanted i s s')
    (hbinds : s'.diagnostics = [] → s'.findings.BindsTyped i found.2 kind)
    (hrule : s'.diagnostics = [] → s'.findings.TypingRule ctx i ⟨scopes, found.1, found.2⟩ kind) :
    Answer ctx root wanted i scopes kind s found s' :=
  ⟨hp.toFramed, fun hsym hset => (hp.sources hsym hset).imp_right Or.inl, h.unrecorded hp hnot, hrule,
    hbinds⟩

theorem answer_reported (hnot : ¬ s.Recorded i) (hp : Progress ctx root wanted i s s')
    (hdirty : s'.diagnostics ≠ []) : Answer ctx root wanted i scopes kind s found s' :=
  h.answer hnot hp (fun hclean => absurd hclean hdirty) fun hclean => absurd hclean hdirty

end Resolving

/-! ## Recording -/

namespace Session

theorem recorded_iff : s.Recorded n ↔ ∃ ty, s.findings.type? n = some ty := by
  constructor
  · rintro ⟨r, hr⟩
    exact ⟨r.ty, Findings.type?_eq_some.mpr ⟨r, hr, rfl⟩⟩
  · rintro ⟨ty, hty⟩
    obtain ⟨r, hr, -⟩ := Findings.type?_eq_some.mp hty
    exact ⟨r, hr⟩

theorem wired_of_scopes {sc : NodeScopes} (hsc : s.nodes.scopes? n = some sc)
    (hnot : ¬ s.Recorded n) : s.nodes.get? n = some (.wired sc) := by
  unfold NodeStates.scopes? at hsc
  cases hstate : s.nodes.get? n with
  | none => simp [hstate] at hsc
  | some state =>
    cases state with
    | unresolved => simp [hstate, NodeState.scopes?] at hsc
    | wired sc' => simpa [hstate, NodeState.scopes?] using hsc
    | typed r => exact absurd ⟨r, by simp [NodeStates.resolution?, hstate, NodeState.resolution?]⟩ hnot
    | generated r =>
      exact absurd ⟨r, by simp [NodeStates.resolution?, hstate, NodeState.resolution?]⟩ hnot

end Session

section Record

variable {r : Resolution} (hwired : s.nodes.get? i = some (.wired r.scopes))

include hwired

theorem Later.record (hrule : s.diagnostics = [] → ∃ kind, ctx.tree.kind? i = some kind ∧
      s.findings.TypingRule ctx i r kind ∧ s.findings.BindsTyped i r.binding kind) :
    Later ctx root wanted s { s with nodes := s.nodes.set i (.typed r) } := by
  refine ⟨rfl, rfl, ?_, ?_, fun _ _ h => h, ⟨[], by simp⟩, fun h => Or.inl h, ?_⟩
  · intro j
    by_cases hij : i = j
    · subst hij
      simp [NodeStates.scopes?, NodeStates.get?_set_self hwired, hwired, NodeState.scopes?]
    · exact NodeStates.scopes?_set_of_ne _ hij _
  · intro n r' hr'
    rw [NodeStates.resolution?_set_typed hwired]
    split
    · rename_i heq
      subst heq
      simp [NodeStates.resolution?, hwired, NodeState.resolution?] at hr'
    · exact hr'
  · intro hclean
    obtain ⟨kind, hk, hrule, hbinds⟩ := hrule hclean
    exact Relation.ReflTransGen.single (.record hk hwired hrule hbinds)

end Record

theorem Answer.outcome {scopes : NodeScopes} {kind : NodeKind} {binding : Binding}
    (h : Answer ctx root wanted i scopes kind s (ty, binding) s')
    (hheld : Held ctx root wanted s₀ s)
    (hr : ctx.tree.isTypeRef i = true ∨ Ready ctx root s i)
    (hsc : s.nodes.scopes? i = some scopes) (hk : ctx.tree.kind? i = some kind) :
    Outcome ctx root wanted s₀ i s ty
      { s' with nodes := s'.nodes.set i (.typed ⟨scopes, ty, binding⟩) } := by
  have hwired : s'.nodes.get? i = some (.wired scopes) :=
    wired_of_scopes ((h.later.scopes i).trans hsc) h.unrecorded
  have hrec : Later ctx root wanted s'
      { s' with nodes := s'.nodes.set i (.typed ⟨scopes, ty, binding⟩) } :=
    .record hwired fun hclean => ⟨kind, hk, h.rule hclean, h.binds hclean⟩
  have hself : (Session.Recorded { s' with
      nodes := s'.nodes.set i (.typed ⟨scopes, ty, binding⟩) } i) :=
    ⟨_, (NodeStates.resolution?_set_typed hwired _ i).trans (if_pos rfl)⟩
  have hother : ∀ {m}, m ≠ i → (Session.Recorded { s' with
      nodes := s'.nodes.set i (.typed ⟨scopes, ty, binding⟩) } m) → s'.Recorded m := by
    rintro m hne ⟨r, hr⟩
    exact ⟨r, ((NodeStates.resolution?_set_typed hwired _ m).trans (if_neg (Ne.symm hne))).symm.trans hr⟩
  have hsources : ∀ {id name d c}, s.table.symbol? id = some ⟨name, .source d c⟩ →
      s'.symbolTypes.get? id ≠ none → s.symbolTypes.get? id ≠ none ∨ (Session.Recorded { s' with
        nodes := s'.nodes.set i (.typed ⟨scopes, ty, binding⟩) } d) := by
    intro id name d c hsym hset
    rcases h.sources hsym hset with hset | hd | rfl
    · exact Or.inl hset
    · exact Or.inr (hrec.recorded hd)
    · exact Or.inr hself
  have hparams : ∀ {id name l j}, s.table.symbol? id = some ⟨name, .parameter l j⟩ →
      s'.symbolTypes.get? id ≠ none → s.symbolTypes.get? id ≠ none ∨ (Session.Recorded { s' with
        nodes := s'.nodes.set i (.typed ⟨scopes, ty, binding⟩) } l) ∨
        ctx.tree.isTypeRef i = false ∧ ctx.tree.Above l i ∧ s'.diagnostics ≠ [] := by
    intro id name l j hsym hset
    rcases h.params hsym hset with hset | hl | ⟨htype, hli, honly⟩
    · exact Or.inl hset
    · exact Or.inr (Or.inl (hrec.recorded hl))
    · by_cases heq : l = i
      · exact Or.inr (Or.inl (heq ▸ hself))
      · have habove := hli.eq_or_above.resolve_left (Ne.symm heq)
        exact Or.inr (Or.inr ⟨htype, habove, fun hclean => heq (honly hclean)⟩)
  refine ⟨h.later.trans hrec, h.inProgress, h.depth, ?_, hsources, hparams, ?_, ?_,
    fun hi => absurd (h.later.recorded hi) h.unrecorded⟩
  · intro m hm
    by_cases hmi : m = i
    · exact Or.inr (Or.inl hmi)
    · exact (h.nodes (hother hmi hm)).imp_right Or.inr
  · refine hheld.step (h.later.trans hrec) h.inProgress hsources ?_
    intro id name l j hsym hset
    rcases hparams hsym hset with hset | hl | ⟨htype, hli, -⟩
    · exact Or.inl hset
    · exact Or.inr (Or.inl hl)
    · rcases hr with hr | hr
      · simp [htype] at hr
      · exact Or.inr (Or.inr fun hd hdecl habove => hr.ancestors hd hdecl (habove.trans hli))
  · exact Findings.type?_eq_some.mpr ⟨_, (NodeStates.resolution?_set_typed hwired _ i).trans (if_pos rfl), rfl⟩

theorem Outcome.of_recorded (hheld : Held ctx root wanted s₀ s)
    (hk : s.findings.type? k = some ty) : Outcome ctx root wanted s₀ k s ty s :=
  ⟨.refl s, rfl, rfl, fun h => Or.inl h, fun _ h => Or.inl h, fun _ h => Or.inl h, hheld, hk,
    fun _ => rfl⟩

theorem Later.setDepth (s : Session) (depth : Nat) :
    Later ctx root wanted s { s with depth := depth } :=
  ⟨rfl, rfl, fun _ => rfl, fun h => h, fun _ _ h => h, ⟨[], by simp⟩, fun h => Or.inl h,
    fun _ => Relation.ReflTransGen.refl⟩

theorem Held.setDepth (h : Held ctx root wanted s₀ s) (depth : Nat) :
    Held ctx root wanted s₀ { s with depth := depth } :=
  ⟨h.later.trans (.setDepth s depth), h.limit, h.ancestors, h.sources, h.params⟩

theorem Ready.setDepth (h : Ready ctx root s k) (depth : Nat) :
    Ready ctx root { s with depth := depth } k :=
  ⟨h.ancestors, h.below, h.params⟩

theorem Outcome.leave (h : Outcome ctx root wanted s₀ k { s with depth := s.depth + 1 } ty s') :
    Outcome ctx root wanted s₀ k s ty { s' with depth := s'.depth - 1 } := by
  refine ⟨((Later.setDepth s _).trans h.later).trans (.setDepth s' _), h.inProgress, ?_, h.nodes,
    h.sources, h.params, h.held.setDepth _, h.recorded, ?_⟩
  · have hdepth := h.depth
    simp only at hdepth ⊢
    omega
  · intro hk
    rw [h.again hk]
    rfl

end ScriptTyping
