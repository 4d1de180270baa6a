import ScriptTyping.Proofs.ConjoinedGuards
import ScriptTyping.Proofs.Upkeep

/-!
# The operands of guards

The first phase looks up what a guard narrows before the operand is wired, and in a scope that it
finds on its own. The second binds the operand later, in the scope that the node was given. Both
come to the same symbol.
-/

namespace ScriptTyping

open Session Check

variable {ctx : Context} {root g : NodeIndex} {base id o σ : Nat} {name : String} {s s' : Session}
  {expected : Option Ty} {table table' : SymbolTable} {result : CheckResult}

theorem Tree.kind_of_identifier {t : Tree} {i : NodeIndex} (h : t.identifier? i = some name) :
    t.kind? i = some (.identifier name) := by
  unfold identifier? at h
  split at h
  · cases h
    assumption
  · cases h

/-! ## The first phase -/

/-- The operand of the guard means the symbol `o`, which is a constant. -/
structure Session.Operand (ctx : Context) (s : Session) (g operand : NodeIndex) (name : String)
    (o : SymbolId) : Prop where
  guard : ∃ target, ctx.tree.kind? g = some (.typeTest operand target)
  identifier : ctx.tree.kind? operand = some (.identifier name)
  meant : ∃ sc, s.nodes.scopes? operand = some sc ∧ s.table.resolve sc.scope name = some o
  const : s.table.isConst o = true

theorem Accounted.operand (h : Accounted ctx root base s)
    (hrules : ∀ {n}, ctx.tree.Reaches root n → WiredAt ctx s n) (hle : base ≤ id)
    (hsym : s.table.symbol? id = some ⟨name, .narrowed o g⟩) :
    ∃ operand, ctx.tree.Reaches root operand ∧ s.Operand ctx g operand name o := by
  obtain ⟨hname, htruths, -⟩ := h.narrowed hle hsym
  have hg := (h.truths htruths).1
  obtain ⟨operand, target, hk, hidentifier⟩ := Tree.kind_of_guardName hname
  have hchild : ctx.tree.Child g operand := (Tree.child_of_kind hk).mpr (by simp [NodeKind.children])
  obtain ⟨sc, kind, -, -, hk', hrule⟩ := hrules hg
  cases hk.symm.trans hk'
  obtain ⟨-, ⟨inner, hplaced⟩, -, hnarrows⟩ := hrule
  have hnarrowing := hnarrows name [id] hname htruths
  unfold Session.Narrowing at hnarrowing
  split at hnarrowing
  · cases hnarrowing
  · rename_i o' hmeant
    split at hnarrowing
    · rename_i hconst
      obtain ⟨id', heq, hsym'⟩ := hnarrowing
      cases heq
      cases hsym.symm.trans hsym'
      exact ⟨operand, hg.tail hchild, ⟨target, hk⟩, Tree.kind_of_identifier hidentifier,
        ⟨_, hplaced, hmeant⟩, hconst⟩
    · cases hnarrowing

theorem Session.Operand.onward {operand : NodeIndex} (h : s.Operand ctx g operand name o)
    (hs : s.Onward s') : s'.Operand ctx g operand name o := by
  obtain ⟨sc, hsc, hmeant⟩ := h.meant
  refine ⟨h.guard, h.identifier, ⟨sc, ?_, ?_⟩, ?_⟩
  · rw [hs.scopes, hsc]
  · rw [hs.table, hmeant]
  · rw [hs.table, h.const]

/-! ## The second phase -/

/-- An identifier is bound to what it means, whatever the resolver finds on the way. -/
theorem resolveIdentifier_binds (resolve : Resolver) {n : NodeIndex}
    (hmeant : s.table.resolve σ name = some id) :
    (resolveIdentifier ctx resolve n σ name).After s fun a _ => a.2 = .symbol id := by
  unfold resolveIdentifier
  simp only [after_bind, after_get, hmeant]
  exact rfl

/-- The node was resolved at the depth limit, and so not at all. -/
def Session.Cut (s : Session) (r : Resolution) : Prop :=
  s.depthExceeded = true ∧ r.ty = .unknown ∧ r.binding = .none

/-- An identifier is bound to the symbol that its name means, unless it was cut. -/
def Session.NamesBound (ctx : Context) (s : Session) : Prop :=
  ∀ n r name id, s.nodes.resolution? n = some r → ctx.tree.kind? n = some (.identifier name) →
    s.table.resolve r.scopes.scope name = some id → r.binding = .symbol id ∨ s.Cut r

theorem namesBound_keptByResolving (ctx : Context) : KeptByResolving ctx (NamesBound ctx) where
  report _ _ hs := hs
  symbolTypes hs := hs
  counters hs := hs
  limit {s i kind} hk hs n r name id hr hn hmeant := by
    have hexceeded : ((s.tooDeep ctx i).recorded i .unknown .none).depthExceeded = true :=
      tooDeep_exceeds ctx s i
    rcases resolution_recorded hr with hold | ⟨-, sc, -, rfl⟩
    · rw [tooDeep_nodes] at hold
      have htable : (s.tooDeep ctx i).table = s.table := (onward_tooDeep ctx s i).table
      refine (hs n r name id hold hn ?_).imp_right fun hcut => ⟨hexceeded, hcut.2⟩
      rwa [← htable]
    · exact Or.inr ⟨hexceeded, rfl, rfl⟩
  record {s i sc kind below expected} hk hsc := by
    intro honward hs n r name id hr hn hmeant
    rcases resolution_recorded hr with hold | ⟨rfl, sc', hwired, rfl⟩
    · exact hs n r name id hold hn hmeant
    · cases hk.symm.trans hn
      have hscopes := scopes_of_wired hwired
      rw [honward.scopes, hsc] at hscopes
      cases hscopes
      change (Session.table _).resolve sc.scope name = some id at hmeant
      rw [show (Session.recorded _ _ _ _).table = s.table from honward.table] at hmeant
      exact Or.inl (resolveIdentifier_binds (resolveWithin ctx below) hmeant)

/-! ## Both phases -/

theorem checkRoot_operands (hp : ctx.tree.Proper root) (hhost : table.HostScope σ) :
    (checkRoot ctx root σ expected).After (.start ctx table) fun _ s =>
      ∀ (id o : SymbolId) (name g), s.table.symbol? id = some ⟨name, .narrowed o g⟩ →
        ∃ operand, ctx.tree.Reaches root operand ∧ s.Operand ctx g operand name o := by
  have hlaid : KeptByResolving ctx fun s => ∃ s₀, Walked ctx root σ (.start ctx table) s₀ ∧
      Accounted ctx root table.symbols.size s₀ ∧ s₀.Onward s :=
    keptByResolving_of_onward fun ⟨s₀, hw, hacc, hs⟩ hs' => ⟨s₀, hw, hacc, hs.trans hs'⟩
  refine (hlaid.checkRoot ?_).mono ?_
  · exact (wire_spec hp hhost.wf hhost.lt).mono fun _ s₀ ⟨hw, hacc⟩ => ⟨s₀, hw, hacc, .refl s₀⟩
  · rintro - s ⟨s₀, hw, hacc, hs⟩ id o name g hsym
    rw [hs.table] at hsym
    have hle : table.symbols.size ≤ id := by
      by_contra hlt
      have hold := hw.grows.table.symbol_of_lt (Nat.lt_of_not_le hlt) hsym
      obtain ⟨ty, c, horigin⟩ := hhost.host hold
      cases horigin
    obtain ⟨operand, hroot, hoperand⟩ := hacc.operand hw.rules hle hsym
    exact ⟨operand, hroot, hoperand.onward hs⟩

theorem checkRoot_namesBound (ctx : Context) (table : SymbolTable) (root : NodeIndex) (σ : ScopeId)
    (expected : Option Ty) :
    (checkRoot ctx root σ expected).After (.start ctx table) fun _ s => s.NamesBound ctx := by
  refine (namesBound_keptByResolving ctx).checkRoot ?_
  refine (wire_fresh ctx table root σ).mono fun _ s hs n r name id hr => ?_
  simp [hs.resolution n] at hr

/-- After a check, clean or not: what a guard narrows is what its operand is bound to, unless the
operand was cut at the depth limit. A resolution within the limit never binds it to anything
else. -/
theorem guard_operand_bound (hp : ctx.tree.Proper root) (hhost : table.HostScope σ)
    (hcheck : check ctx table root σ expected = (result, table')) {id o : SymbolId} {name : String}
    {g : NodeIndex} (hsym : table'.symbol? id = some ⟨name, .narrowed o g⟩) :
    ∃ operand target r, ctx.tree.kind? g = some (.typeTest operand target) ∧
      ctx.tree.kind? operand = some (.identifier name) ∧
      result.nodes.resolution? operand = some r ∧
      (r.binding = .symbol o ∨ r.ty = .unknown ∧ r.binding = .none ∧
        ∃ f ∈ result.diagnostics, f.code = Message.expressionTooDeep.code) ∧
      ∀ (resolve : Resolver) (e : Option Ty) (s : Session), s.table = table' →
        (resolveKind ctx resolve operand r.scopes e (.identifier name) s).1.2 = .symbol o := by
  obtain ⟨hoperands, hbound, htold, -, htyped⟩ :
      (checkRoot ctx root σ expected).After (.start ctx table) _ :=
    (checkRoot_operands hp hhost).and <| (checkRoot_namesBound ctx table root σ expected).and <|
      (checkRoot_limitTold ctx table root σ expected).and (checkRoot_covers hp.acyclicBelow)
  cases hcheck
  obtain ⟨operand, hroot, ⟨⟨target, hk⟩, hidentifier, ⟨sc, hsc, hmeant⟩, -⟩⟩ := hoperands id o name g hsym
  obtain ⟨r, hr⟩ := htyped operand ⟨hroot, hp.present hroot⟩
  have hresolution : (checkRoot ctx root σ expected (.start ctx table)).2.nodes.resolution? operand =
      some r := by
    simp [NodeStates.resolution?, hr, NodeState.resolution?]
  have hscopes : sc = r.scopes := by
    simpa [NodeStates.scopes?, hr, NodeState.scopes?, eq_comm] using hsc
  subst hscopes
  refine ⟨operand, target, r, hk, hidentifier, hresolution, ?_, fun resolve e s htable => ?_⟩
  · refine (hbound operand r name o hresolution hidentifier hmeant).imp_right fun hcut => ?_
    exact ⟨hcut.2.1, hcut.2.2, htold.exceeded_iff.mp hcut.1⟩
  · exact resolveIdentifier_binds resolve (by rw [htable]; exact hmeant)

/-- The second guard on `v` narrows what the first one has left, in both phases. -/
theorem second_operand_bound_to_first_narrowing : ∃ result table',
    check twiceGuardedContext twiceGuardedTable 12 0 none = (result, table') ∧
      table'.symbol? 4 = some ⟨"v", .narrowed 2 8⟩ ∧ table'.symbol? 2 = some ⟨"v", .narrowed 0 2⟩ ∧
      ∃ r, result.nodes.resolution? 6 = some r ∧ r.binding = .symbol 2 := by
  have hp : twiceGuardedContext.tree.Proper 12 := by
    apply Tree.Proper.of_slots <;> decide
  have hhost : twiceGuardedTable.HostScope 0 := SymbolTable.hostScope_spec _
  have hk8 : twiceGuardedContext.tree.kind? 8 = some (.typeTest 6 7) := by decide
  have hclean : (check twiceGuardedContext twiceGuardedTable 12 0 none).1.diagnostics = [] := by
    decide +kernel
  have hfirst : (check twiceGuardedContext twiceGuardedTable 12 0 none).2.symbol? 2 =
      some ⟨"v", .narrowed 0 2⟩ := by decide +kernel
  have hsecond : (check twiceGuardedContext twiceGuardedTable 12 0 none).2.symbol? 4 =
      some ⟨"v", .narrowed 2 8⟩ := by decide +kernel
  generalize hcheck : check twiceGuardedContext twiceGuardedTable 12 0 none = outcome
    at hclean hfirst hsecond
  obtain ⟨result, table'⟩ := outcome
  obtain ⟨operand, target, r, hk, -, hr, hbinding, -⟩ := guard_operand_bound hp hhost hcheck hsecond
  cases hk8.symm.trans hk
  refine ⟨result, table', rfl, hsecond, hfirst, r, hr, hbinding.resolve_right ?_⟩
  rintro ⟨-, -, f, hf, -⟩
  rw [show result.diagnostics = [] from hclean] at hf
  cases hf

end ScriptTyping
