import ScriptTyping.Proofs.Lambdas
import ScriptTyping.Typing.Resolve

/-!
# Resolving nodes

Every resolution that is asked for at the right time ends with the node recorded, by induction on
the levels that are left below the depth limit.
-/

namespace ScriptTyping

open Session Check

variable {ctx : Context} {root i : NodeIndex} {base : Nat} {wanted : Option Ty}
  {s₀ s s' : Session} {scopes : NodeScopes} {expected : Option Ty} {resolve : Resolver}

theorem resolveKind_spec (hL : Layout ctx root base s₀) (hresolver : Resolves ctx root wanted s₀ resolve)
    (hheld : Held ctx root wanted s₀ s) (hi : ctx.tree.Reaches root i)
    (hr : ctx.tree.isTypeRef i = true ∨ Ready ctx root s i) (hnot : ¬ s.Recorded i)
    {kind : NodeKind} (hk : ctx.tree.kind? i = some kind) (hsc : s₀.nodes.scopes? i = some scopes)
    (he : s.Awaits ctx root wanted i expected) :
    (resolveKind ctx resolve i scopes expected kind).After s
      (Answer ctx root wanted i scopes kind s) := by
  have hready : kind.isTypeRef = false → Ready ctx root s i := by
    intro hkind
    rcases hr with htype | hr
    · simp [Tree.isTypeRef, hk, hkind] at htype
    · exact hr
  have hresolving : kind.isDeclaration = false →
      Resolving ctx root base wanted s₀ resolve i s := by
    intro hkind
    refine ⟨hL, hresolver, hheld, hi, hr.imp_right fun hr => hr.busy ?_⟩
    simp [Tree.isDeclaration, hk, hkind]
  unfold resolveKind
  cases kind with
  | identifier name => exact (hresolving rfl).resolveIdentifier_spec hnot hk hsc
  | literal value =>
    exact (hresolving rfl).answer hnot (.refl i s) (fun _ => trivial) fun _ => ⟨rfl, rfl⟩
  | collection elements => exact (hresolving rfl).resolveCollection_spec hnot hk he
  | conditional condition thenBranch elseBranch =>
    exact (hresolving rfl).resolveConditional_spec hnot hk he
  | invocation callee arguments trailing => exact (hresolving rfl).resolveInvocation_spec hnot hk
  | memberAccess object member => exact (hresolving rfl).resolveMember_spec hnot hk
  | lambda params body =>
    exact (hresolving rfl).resolveLambda_spec (hready rfl) hnot hk hsc he
  | typeTest operand target => exact (hresolving rfl).resolveTypeTest_spec hnot hk
  | conjunction left right => exact (hresolving rfl).resolveConjunction_spec hnot hk
  | block statements =>
    simp only [after_bind, after_pure]
    refine ((hresolving rfl).resolveBlock_spec (.refl i s)
      (fun c hc => (Tree.child_of_kind hk).mpr hc)
      fun c hc => he.child hi hk fun _ t ht => ⟨hc, ht⟩).mono ?_
    rintro ty s' ⟨hp, -, types, htypes, hty⟩
    exact (hresolving rfl).answer hnot hp (fun _ => trivial) fun _ => ⟨types, htypes, rfl, hty⟩
  | declaration name isConst ascription initializer =>
    exact resolveDeclaration_spec hL hresolver hheld hi (hready rfl) hnot hk
  | assignment target value => exact (hresolving rfl).resolveAssignment_spec hnot hk
  | typeRef name args => exact (hresolving rfl).resolveTypeRef_spec hnot hk

/-! ## The depth limit -/

theorem reportTooDeep_spec (hheld : Held ctx root wanted s₀ s) :
    (reportTooDeep ctx i).After s fun _ s' => Progress ctx root wanted i s s' ∧
      s'.diagnostics ≠ [] ∧ (s'.Recorded i → s.Recorded i) := by
  unfold reportTooDeep
  simp only [after_bind, after_get]
  split
  · simp only [after_bind, after_modify, after_reportAt]
    generalize Diagnostic.ofMessage _ _ _ = found
    refine ⟨⟨⟨?_, rfl, rfl, fun h => Or.inl h, fun _ h => Or.inl h⟩, fun _ h => Or.inl h⟩,
      by simp, fun h => h⟩
    exact ⟨rfl, rfl, fun _ => rfl, fun h => h, fun _ _ h => h, ⟨[found], rfl⟩,
      fun _ => Or.inr (by simp), by simp⟩
  · rename_i hexceeded
    exact ⟨.refl i s, hheld.limit (by simpa using hexceeded), fun h => h⟩

theorem Check.after_record {ty : Ty} {binding : Binding}
    (hwired : s.nodes.get? i = some (.wired scopes)) (Q : Unit → Session → Prop) :
    (record i ty binding).After s Q ↔
      Q () { s with nodes := s.nodes.set i (.typed ⟨scopes, ty, binding⟩) } := by
  simp only [record, after_modify, NodeStates.record?, hwired, Option.getD_some]

theorem Answer.record {kind : NodeKind} {found : Ty × Binding}
    (h : Answer ctx root wanted i scopes kind { s with depth := s.depth + 1 } found s')
    (hheld : Held ctx root wanted s₀ s) (hr : ctx.tree.isTypeRef i = true ∨ Ready ctx root s i)
    (hsc : s.nodes.scopes? i = some scopes) (hk : ctx.tree.kind? i = some kind) :
    (do leave; record i found.1 found.2; pure found.1 : Check Ty).After s'
      (Outcome ctx root wanted s₀ i s) := by
  have hwired : s'.nodes.get? i = some (.wired scopes) :=
    wired_of_scopes ((h.later.scopes i).trans hsc) h.unrecorded
  have hout := h.outcome (hheld.setDepth _) (hr.imp_right fun hr => hr.setDepth _) hsc hk
  simp only [after_bind, leave, after_modify, after_pure]
  rw [after_record (s := { s' with depth := s'.depth - 1 }) hwired]
  exact hout.leave

theorem resolveWithin_step (hL : Layout ctx root base s₀) {remaining : Nat}
    (ih : ∀ below, remaining = below + 1 → Resolves ctx root wanted s₀ (resolveWithin ctx below)) :
    Resolves ctx root wanted s₀ (resolveWithin ctx remaining) := by
  intro i expected s hheld hi hr he
  unfold resolveWithin
  simp only [after_bind, after_get]
  cases hty : s.nodes.type? i with
  | some ty => exact .of_recorded hheld hty
  | none =>
    have hnot : ¬ s.Recorded i := by
      rw [recorded_iff]
      rintro ⟨ty, hty'⟩
      rw [show s.findings.type? i = none from hty] at hty'
      cases hty'
    have hr' := hr.resolve_left hnot
    obtain ⟨sc, -, hwired, -⟩ := hL.wired hi
    obtain ⟨node, hnode⟩ := hL.proper.present hi
    have hk := Tree.kind_of_get hnode
    have hsc : s.nodes.scopes? i = some sc := by
      rw [hheld.later.scopes]
      exact scopes_of_wired hwired
    simp only [hsc, hnode]
    cases remaining with
    | zero =>
      simp only [after_bind, after_pure]
      refine (reportTooDeep_spec hheld).mono ?_
      rintro - s1 ⟨hp, hdirty, hrecorded⟩
      have hanswer : Answer ctx root wanted i sc node.kind s (.unknown, .none) s1 :=
        ⟨hp.toFramed, fun hsym hset => (hp.sources hsym hset).imp_right Or.inl,
          fun hrec => hnot (hrecorded hrec), fun hclean => absurd hclean hdirty,
          fun hclean => absurd hclean hdirty⟩
      have hwired1 := wired_of_scopes ((hp.later.scopes i).trans hsc) hanswer.unrecorded
      rw [after_record hwired1]
      exact hanswer.outcome hheld hr' hsc hk
    | succ below =>
      simp only [after_bind, enter, after_modify]
      refine (resolveKind_spec hL (ih below rfl) (hheld.setDepth (s.depth + 1)) hi
        (hr'.imp_right fun hr => hr.setDepth _) hnot hk (scopes_of_wired hwired) he).mono ?_
      rintro found s1 hanswer
      exact hanswer.record hheld hr' hsc hk

theorem resolveWithin_spec (hL : Layout ctx root base s₀) (remaining : Nat) :
    Resolves ctx root wanted s₀ (resolveWithin ctx remaining) := by
  induction remaining with
  | zero => exact resolveWithin_step hL fun below h => absurd h (by omega)
  | succ below ih =>
    refine resolveWithin_step hL fun below' h => ?_
    cases h
    exact ih

end ScriptTyping
