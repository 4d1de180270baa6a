import ScriptTyping.Proofs.References

/-!
# No false alarms

Every declaration in progress leads to the node that is being resolved. A circular reference that
is reported there is a way back, so there is a cycle among the declarations.
-/

namespace ScriptTyping

open Session Check Relation

variable {ctx : Context} {root c d i k n : NodeIndex} {base : Nat} {s₀ s s' s'' : Session}
  {resolve : Resolver} {sc : NodeScopes} {kind : NodeKind} {cs : List NodeIndex}

/-- Some diagnostic has the code of the message. -/
def Session.Reports (s : Session) (m : Message) : Prop := ∃ f ∈ s.diagnostics, f.code = m.code

theorem Session.reports_append {m : Message} {f : Diagnostic}
    (h : Session.Reports { s with diagnostics := s.diagnostics ++ [f] } m) :
    s.Reports m ∨ f.code = m.code := by
  obtain ⟨f', hf', hcode⟩ := h
  rcases List.mem_append.mp hf' with hold | hnew
  · exact Or.inl ⟨f', hold, hcode⟩
  · rw [List.mem_singleton.mp hnew] at hcode
    exact Or.inr hcode

/-- What is in progress leads to the node. -/
def Session.LeadsTo (ctx : Context) (s₀ s : Session) (i : NodeIndex) : Prop :=
  ∀ d ∈ s.inProgress, ctx.tree.isDeclaration d = true ∧ ReflTransGen (Needs ctx s₀) d i

theorem Session.LeadsTo.step (h : LeadsTo ctx s₀ s i) (hk : Needs ctx s₀ i k) :
    LeadsTo ctx s₀ s k :=
  fun d hd => ⟨(h d hd).1, (h d hd).2.tail hk⟩

/-- Nothing else is in progress than before, and a circular reference is reported only if there is a
cycle. -/
structure Fair (ctx : Context) (root : NodeIndex) (s₀ s s' : Session) : Prop where
  inProgress : s'.inProgress ⊆ s.inProgress
  reports : s'.Reports .circularReference → s.Reports .circularReference ∨ Cyclic ctx root s₀

namespace Fair

theorem refl (s : Session) : Fair ctx root s₀ s s := ⟨fun _ h => h, Or.inl⟩

theorem trans (h : Fair ctx root s₀ s s') (h' : Fair ctx root s₀ s' s'') :
    Fair ctx root s₀ s s'' :=
  ⟨fun _ hd => h.inProgress (h'.inProgress hd), fun hr => (h'.reports hr).elim h.reports Or.inr⟩

theorem of_same (hprogress : s'.inProgress = s.inProgress)
    (hdiagnostics : s'.diagnostics = s.diagnostics) : Fair ctx root s₀ s s' := by
  refine ⟨fun _ hd => hprogress ▸ hd, fun hr => Or.inl ?_⟩
  rwa [Reports, hdiagnostics] at hr

theorem report {f : Diagnostic} (hf : f.code ≠ Message.circularReference.code) :
    Fair ctx root s₀ s { s with diagnostics := s.diagnostics ++ [f] } :=
  ⟨fun _ h => h, fun h => Or.inl ((reports_append h).resolve_right hf)⟩

end Fair

/-- The resolver is fair to every node that may be asked for: type references read no names, so
they may be asked for from anywhere. -/
def Honest (ctx : Context) (root : NodeIndex) (s₀ : Session) (resolve : Resolver) : Prop :=
  ∀ k expected s, s₀.Onward s → ctx.tree.Reaches root k →
    ctx.tree.isTypeRef k = true ∨ LeadsTo ctx s₀ s k → Fair ctx root s₀ s (resolve k expected s).2

theorem Reads.identifier {table : SymbolTable} {σ : ScopeId} {id : SymbolId}
    (h : Reads ctx table i σ id) : ∃ name, ctx.tree.kind? i = some (.identifier name) := by
  induction h with
  | meant hk => exact ⟨_, hk⟩
  | original _ _ ih => exact ih

theorem Reads.not_typeRef {table : SymbolTable} {σ : ScopeId} {id : SymbolId}
    (h : Reads ctx table i σ id) : ctx.tree.isTypeRef i = false := by
  obtain ⟨name, hk⟩ := h.identifier
  simp [Tree.isTypeRef, hk, NodeKind.isTypeRef]

section Node

variable (hL : Layout ctx root base s₀) (hi : ctx.tree.Reaches root i)
  (hsc : s₀.nodes.scopes? i = some sc) (hresolve : Honest ctx root s₀ resolve)

include hL hi hsc hresolve

theorem Move.fair (h : Move ctx resolve s₀.table i sc cs s s') (hs : s₀.Onward s)
    (hcs : ∀ c ∈ cs, ctx.tree.Child i c)
    (hleads : ctx.tree.isTypeRef i = true ∨ LeadsTo ctx s₀ s i) : Fair ctx root s₀ s s' := by
  have hreader : ∀ {id}, Reads ctx s₀.table i sc.scope id → LeadsTo ctx s₀ s i := fun hread =>
    hleads.resolve_left (by simp [hread.not_typeRef])
  have hrefers : ∀ {id : Nat} {name d c}, Reads ctx s₀.table i sc.scope id →
      s₀.table.symbol? id = some ⟨name, .source d c⟩ → RefersTo ctx s₀.nodes s₀.table i d :=
    fun hread hsym => hL.refersTo_of_reads hsc hread
      ((SymbolTable.standsFor_iff (by simp [hsym])).mpr ⟨_, _, hsym⟩)
  cases h with
  | visit s c expected =>
    have hchild := hcs c (by simp)
    refine hresolve c expected s hs (hi.tail hchild) (hleads.imp ?_ ?_)
    · exact fun htype => hL.types.child hi htype hchild
    · exact fun h => h.step (Or.inl hchild)
  | report s found hcycle _ => exact .report hcycle
  | circular s hread hsym hd found _ =>
    -- The declaration in progress leads here, and here is a reference back to it.
    obtain ⟨hdecl, hway⟩ := hreader hread _ hd
    exact ⟨fun _ h => h, fun _ => Or.inr (hL.cyclic_of_back_reference hdecl hway
      (hrefers hread hsym))⟩
  | demand s hread hsym hd =>
    exact hresolve _ none s hs (hL.source hsym).1
      (Or.inr ((hreader hread).step (Or.inr (hrefers hread hsym))))
  | target s hread hsym hk =>
    obtain ⟨hroot, htype⟩ := hL.typeTest_target hsym hk
    exact hresolve _ none s hs hroot (Or.inl htype)
  | symbol => exact .of_same rfl rfl
  | parameter => exact .of_same rfl rfl

theorem Work.fair (h : Work ctx resolve s₀.table i sc cs s s') (honward : GoesOnward resolve)
    (hs : s₀.Onward s) (hcs : ∀ c ∈ cs, ctx.tree.Child i c)
    (hleads : ctx.tree.isTypeRef i = true ∨ LeadsTo ctx s₀ s i) : Fair ctx root s₀ s s' := by
  induction h with
  | start s => exact .refl s
  | move hwork hm ih =>
    have hfair := ih hs fun c hc => hcs c (List.mem_append_left _ hc)
    refine (hfair hleads).trans (hm.fair hL hi hsc hresolve (hs.trans (hwork.onward honward))
      (fun c hc => hcs c (List.mem_append_right _ hc)) (hleads.imp_right ?_))
    exact fun h d hd => h d ((hfair (Or.inr h)).inProgress hd)

theorem Resolved.fair (h : Resolved ctx resolve i sc kind s s') (honward : GoesOnward resolve)
    (hk : ctx.tree.kind? i = some kind) (hs : s₀.Onward s)
    (hleads : ctx.tree.isTypeRef i = true ∨ LeadsTo ctx s₀ s i) : Fair ctx root s₀ s s' := by
  cases h with
  | plain hkind horder hwork _ =>
    rw [hs.table] at hwork
    refine hwork.fair hL hi hsc hresolve honward hs (fun c hc => ?_) hleads
    exact (Tree.child_of_kind hk).mpr (visited_subset (horder.subset hc))
  | @declaration order s s1 hkind horder hwork ty =>
    have hdecl : ctx.tree.isDeclaration i = true := by simp [Tree.isDeclaration, hk, hkind]
    have htype : ctx.tree.isTypeRef i = false := by
      cases kind <;> simp [Tree.isTypeRef, hk, NodeKind.isTypeRef, NodeKind.isDeclaration] at *
    have hleads' : LeadsTo ctx s₀ (s.begun i) i := by
      intro d hd
      rcases List.mem_insert_iff.mp hd with rfl | hd
      · exact ⟨hdecl, .refl⟩
      · exact hleads.resolve_left (by simp [htype]) d hd
    rw [hs.table] at hwork
    have hfair := hwork.fair hL hi hsc hresolve honward (hs.trans (onward_begun s i))
      (fun c hc => (Tree.child_of_kind hk).mpr (horder.subset hc)) (Or.inr hleads')
    refine ⟨fun d hd => ?_, hfair.reports⟩
    obtain ⟨hd, hne⟩ := List.mem_filter.mp hd
    exact (List.mem_insert_iff.mp (hfair.inProgress hd)).resolve_left (by simpa using hne)

end Node

/-! ## A whole resolution -/

theorem Fair.tooDeep (ctx : Context) (s : Session) (i : NodeIndex) :
    Fair ctx root s₀ s (s.tooDeep ctx i) := by
  unfold Session.tooDeep
  split
  · exact .refl s
  · have hcode : Message.expressionTooDeep.code ≠ Message.circularReference.code := by decide
    have hreport : Fair ctx root s₀ s { s with diagnostics := s.diagnostics ++
        [.ofMessage (ctx.tree.span i) .expressionTooDeep []] } := .report hcode
    exact hreport.trans (.of_same rfl rfl)

theorem Call.fair {remaining : Nat} (h : Call ctx remaining i s s')
    (hL : Layout ctx root base s₀) (hi : ctx.tree.Reaches root i)
    (hbelow : ∀ below, remaining = below + 1 → Honest ctx root s₀ (resolveWithin ctx below))
    (hs : s₀.Onward s) (hleads : ctx.tree.isTypeRef i = true ∨ LeadsTo ctx s₀ s i) :
    Fair ctx root s₀ s s' := by
  cases h with
  | done => exact .refl s
  | missing => exact .refl s
  | limit => exact (Fair.tooDeep ctx s i).trans (.of_same rfl rfl)
  | @node below _ sc kind _ s1 _ hsc hk hresolved ty binding =>
    have henter : s.Onward { s with depth := s.depth + 1 } := .of_same rfl rfl rfl rfl
    have hfair := hresolved.fair hL hi ((hs.scopes i).symm.trans hsc) (hbelow below rfl)
      (resolveWithin_onward ctx below) hk (hs.trans henter) hleads
    exact ⟨hfair.inProgress, hfair.reports⟩

theorem resolveWithin_honest (hL : Layout ctx root base s₀) (remaining : Nat) :
    Honest ctx root s₀ (resolveWithin ctx remaining) := by
  refine resolveWithin_induction (fun remaining hbelow k expected s hs hk hleads => ?_) remaining
  exact (resolveWithin_call ctx remaining k expected s).fair hL hk hbelow hs hleads

end ScriptTyping
