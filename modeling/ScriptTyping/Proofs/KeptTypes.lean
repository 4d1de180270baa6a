import ScriptTyping.Proofs.MissedCycles

/-!
# Kept types

The type of a narrowed symbol is written whenever a read has worked it out, without another look at
whether it is there by now. It is still written over by no resolution that starts with it: a read
begins with a look, and finds it.
-/

namespace ScriptTyping

open Session Check

variable {ctx : Context} {root i k : NodeIndex} {base id : Nat} {s₀ s s' s'' : Session}
  {resolve : Resolver} {sc : NodeScopes} {kind : NodeKind} {cs : List NodeIndex}
  {table : SymbolTable}

/-- What the first phase has left is still the same. -/
structure Session.SameWiring (s s' : Session) : Prop where
  table : s'.table = s.table
  declared : s'.declared = s.declared
  scopes : ∀ n, s'.nodes.scopes? n = s.nodes.scopes? n

theorem Session.SameWiring.onward (h : s.SameWiring s') (h' : s'.Onward s'') :
    s.SameWiring s'' :=
  ⟨h'.table.trans h.table, h'.declared.trans h.declared, fun n => (h'.scopes n).trans (h.scopes n)⟩

/-- Neither a declaration nor a lambda gives the symbol its type. -/
def SymbolTable.Unassigned (t : SymbolTable) (id : SymbolId) : Prop :=
  ∀ name origin, t.symbol? id = some ⟨name, origin⟩ →
    (∀ d c, origin ≠ .source d c) ∧ ∀ l j, origin ≠ .parameter l j

/-- The types of such symbols stay as they are. -/
def Session.Retains (table : SymbolTable) (s s' : Session) : Prop :=
  ∀ id ty, table.Unassigned id → s.symbolTypes.get? id = some ty →
    s'.symbolTypes.get? id = some ty

namespace Session.Retains

theorem of_same (h : s'.symbolTypes = s.symbolTypes) : s.Retains table s' :=
  fun id ty _ hty => by rw [h, hty]

theorem refl (s : Session) : s.Retains table s := .of_same rfl

theorem trans (h : s.Retains table s') (h' : s'.Retains table s'') : s.Retains table s'' :=
  fun id ty hid hty => h' id ty hid (h id ty hid hty)

theorem insert (h : s.Retains table s') (ty : Ty)
    (hid : s.symbolTypes.get? id = none ∨ ¬ table.Unassigned id) :
    s.Retains table { s' with symbolTypes := s'.symbolTypes.insert id ty } := by
  intro id' ty' hid' hty'
  have hne : id ≠ id' := by
    rintro rfl
    rcases hid with hnone | hassigned
    · rw [hnone] at hty'
      cases hty'
    · exact hassigned hid'
  rw [OrderedMap.get?_insert_of_ne _ hne]
  exact h id' ty' hid' hty'

end Session.Retains

/-- Every call of the resolver keeps such types. -/
def Retentive (ctx : Context) (root : NodeIndex) (s₀ : Session) (resolve : Resolver) : Prop :=
  ∀ k expected s, s₀.SameWiring s → ctx.tree.Reaches root k →
    s.Retains s₀.table (resolve k expected s).2

section Names

variable (hL : Layout ctx root base s₀) (hresolve : Retentive ctx root s₀ resolve)
  (honward : GoesOnward resolve)

include hL hresolve honward

theorem guardType_retains {o : SymbolId} {name : String} {g : NodeIndex}
    (hsym : s₀.table.symbol? id = some ⟨name, .narrowed o g⟩) (hs : s₀.SameWiring s) :
    (guardType ctx resolve g).After s fun _ s' => s.Onward s' ∧ s.Retains s₀.table s' := by
  unfold guardType
  split
  · rename_i operand target hk
    exact ⟨honward target none s, hresolve target none s hs (hL.typeTest_target hsym hk).1⟩
  · exact ⟨.refl s, .refl s⟩

theorem symbolTypeWithin_retains (links : Nat) (hs : s₀.SameWiring s) :
    (symbolTypeWithin ctx resolve i links id).After s fun _ s' =>
      s.Onward s' ∧ s.Retains s₀.table s' := by
  induction links generalizing id s with
  | zero => exact ⟨.refl s, .refl s⟩
  | succ links ih =>
    unfold symbolTypeWithin
    simp only [after_bind, after_get]
    split
    · exact ⟨.refl s, .refl s⟩
    · rename_i hnone
      rw [hs.table]
      split
      · exact ⟨.refl s, .refl s⟩
      · exact ⟨.refl s, .refl s⟩
      · rename_i name d c hsym
        split
        · exact ⟨.report s _, .of_same rfl⟩
        · exact ⟨honward d none s, hresolve d none s hs (hL.source hsym).1⟩
      · exact ⟨(Onward.report s _).trans (.of_same rfl rfl rfl rfl),
          (Retains.refl s).insert _ (Or.inl hnone)⟩
      · rename_i name o g hsym
        simp only [after_bind, after_pure]
        refine (ih hs).mono ?_
        rintro declared s1 ⟨hs1, hread⟩
        refine (guardType_retains hL hresolve honward hsym (hs.onward hs1)).mono ?_
        rintro asserted s2 ⟨hs2, hguard⟩
        exact ⟨hs1.trans (hs2.trans (.of_same rfl rfl rfl rfl)),
          (hread.trans hguard).insert _ (Or.inl hnone)⟩

theorem resolveIdentifier_retains (scope : ScopeId) (name : String) (hs : s₀.SameWiring s) :
    (resolveIdentifier ctx resolve i scope name).After s fun _ s' => s.Retains s₀.table s' := by
  unfold resolveIdentifier
  simp only [after_bind, after_get]
  split
  · exact .of_same rfl
  · simp only [after_bind, after_pure, symbolType, after_get]
    exact (symbolTypeWithin_retains hL hresolve honward _ hs).2

end Names

/-! ## Other nodes -/

section Node

variable (hL : Layout ctx root base s₀) (hi : ctx.tree.Reaches root i)
  (hsc : s₀.nodes.scopes? i = some sc) (hresolve : Retentive ctx root s₀ resolve)

include hL hi hsc hresolve

theorem Move.retains (h : Move ctx resolve s₀.table i sc cs s s')
    (hname : ∀ name, ctx.tree.kind? i ≠ some (.identifier name)) (hs : s₀.SameWiring s)
    (hcs : ∀ c ∈ cs, ctx.tree.Child i c) : s.Retains s₀.table s' := by
  have hreads : ∀ {id}, ¬ Reads ctx s₀.table i sc.scope id := fun hread =>
    hread.identifier.elim hname
  cases h with
  | visit s c expected => exact hresolve c expected s hs (hi.tail (hcs c (by simp)))
  | report => exact .of_same rfl
  | circular _ hread => exact absurd hread hreads
  | demand _ hread => exact absurd hread hreads
  | target _ hread => exact absurd hread hreads
  | symbol _ hread => exact absurd hread hreads
  | @parameter _ id params body hk hid ty =>
    have hmem : s₀.table.symbol? id ∈ (listed s₀.table sc).map s₀.table.symbol? :=
      List.mem_map_of_mem hid
    rw [hL.listed_parameters hi hsc hk] at hmem
    obtain ⟨p, -, hsym⟩ := List.mem_map.mp hmem
    exact (Retains.refl s).insert ty (Or.inr fun hid => (hid _ _ hsym.symm).2 i p.2 rfl)

theorem Work.retains (h : Work ctx resolve s₀.table i sc cs s s') (honward : GoesOnward resolve)
    (hname : ∀ name, ctx.tree.kind? i ≠ some (.identifier name)) (hs : s₀.SameWiring s)
    (hcs : ∀ c ∈ cs, ctx.tree.Child i c) : s.Retains s₀.table s' := by
  induction h with
  | start s => exact .refl s
  | move hwork hm ih =>
    exact (ih hs fun c hc => hcs c (List.mem_append_left _ hc)).trans
      (hm.retains hL hi hsc hresolve hname (hs.onward (hwork.onward honward))
        fun c hc => hcs c (List.mem_append_right _ hc))

theorem Resolved.retains (h : Resolved ctx resolve i sc kind s s')
    (hk : ctx.tree.kind? i = some kind) (honward : GoesOnward resolve) (hs : s₀.SameWiring s) :
    s.Retains s₀.table s' := by
  have hvisited : visited s₀.table sc kind = kind.children := hL.visited_eq hi hsc hk
  cases h with
  | plain hkind horder hwork hname =>
    by_cases hident : ∃ name, kind = .identifier name
    · obtain ⟨name, rfl⟩ := hident
      rw [hname name rfl]
      exact resolveIdentifier_retains hL hresolve honward sc.scope name hs
    · rw [hs.table] at hwork horder
      refine hwork.retains hL hi hsc hresolve honward ?_ hs fun c hc => ?_
      · intro name hk'
        exact hident ⟨name, Option.some.inj (hk.symm.trans hk')⟩
      · exact (Tree.child_of_kind hk).mpr (hvisited ▸ horder.mem_iff.mp hc)
  | @declaration order s s1 hkind horder hwork ty =>
    have hbegun : s₀.SameWiring (s.begun i) := hs.onward (onward_begun s i)
    rw [hs.table] at hwork
    have hinner : (s.begun i).Retains s₀.table s1 := by
      refine hwork.retains hL hi hsc hresolve honward ?_ hbegun fun c hc => ?_
      · intro name hk'
        rw [hk] at hk'
        cases hk'
        simp [NodeKind.isDeclaration] at hkind
      · exact (Tree.child_of_kind hk).mpr (horder.mem_iff.mp hc)
    have hdeclared : s1.declared = s₀.declared :=
      (hbegun.onward (hwork.onward honward)).declared
    unfold Session.ended
    rw [hdeclared]
    cases hid : s₀.declared.get? i with
    | none => exact hinner
    | some id =>
      obtain ⟨-, -, name, c, ascription, initializer, -, hsym⟩ := hL.accounted.declared hid
      exact hinner.insert ty (Or.inr fun hid => (hid _ _ hsym).1 i c rfl)

end Node

/-! ## A whole resolution -/

/-- No resolution writes over the type of a narrowed symbol that it starts with. -/
theorem resolveWithin_retains (hL : Layout ctx root base s₀) (remaining : Nat) :
    Retentive ctx root s₀ (resolveWithin ctx remaining) := by
  refine resolveWithin_induction (fun remaining hbelow i expected s hs hi => ?_) remaining
  have hcall : Call ctx remaining i s (resolveWithin ctx remaining i expected s).2 :=
    resolveWithin_call ctx remaining i expected s
  generalize (resolveWithin ctx remaining i expected s).2 = s' at hcall ⊢
  cases hcall with
  | done => exact .refl s
  | missing => exact .refl s
  | limit =>
    refine .of_same ?_
    unfold Session.recorded Session.tooDeep
    split <;> rfl
  | @node below _ sc kind _ s1 _ hsc hk hresolved ty binding =>
    have hsc₀ : s₀.nodes.scopes? i = some sc := (hs.scopes i).symm.trans hsc
    have hentered : s₀.SameWiring { s with depth := s.depth + 1 } :=
      hs.onward (.of_same rfl rfl rfl rfl)
    have hinner : Session.Retains s₀.table { s with depth := s.depth + 1 } s1 :=
      hresolved.retains hL hi hsc₀ (hbelow below rfl) hk (resolveWithin_onward ctx below) hentered
    exact hinner

end ScriptTyping
