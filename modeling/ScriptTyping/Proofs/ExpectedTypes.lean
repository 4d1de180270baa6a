import ScriptTyping.Proofs.LexicalScoping
import ScriptTyping.Proofs.Coverage
import ScriptTyping.Proofs.Lockstep

/-!
# What an expected type is for

Expected types go down the tree and on into arguments and initializers, but only a lambda makes
anything of the one that it is given. Without lambdas a check comes to the same whatever is expected
of the root, up to the finding that the root does not fit.
-/

namespace ScriptTyping

open Session Check

variable {ctx : Context} {table : SymbolTable} {root : NodeIndex} {σ : ScopeId}
  {extra : List Diagnostic}

/-- Two runs that expect what they like, as long as no lambda is wired. -/
def withoutLambdas (ctx : Context) (extra : List Diagnostic) : Pairing ctx where
  valid s := ∀ i, ctx.tree.isLambda i = true → s.nodes.scopes? i = none
  expects _ _ := True
  extra := extra
  earlier hbefore hvalid i hi := (hbefore.scopes i).symm.trans (hvalid i hi)
  same _ := trivial
  bind _ _ := trivial
  lambda {_ i _ _} hvalid hi hwired _ := absurd (hvalid i hi) hwired

theorem resolve_follows_unexpected :
    Follows (withoutLambdas ctx extra) (Check.resolve ctx) (Check.resolve ctx) :=
  resolveWithin_lockstep (Nat.le_refl _) (Or.inl rfl)

theorem wire_withoutLambdas (hacyclic : ctx.tree.AcyclicBelow root)
    (hlambda : ∀ i, ctx.tree.Reaches root i → ctx.tree.isLambda i = false) :
    (wire ctx root σ).After (.start ctx table) fun _ s => (withoutLambdas ctx extra).valid s := by
  refine (wire_spreads hacyclic).mono ?_
  rintro - s ⟨-, hothers⟩ i hi
  have hout : ¬ ctx.tree.Spans root i := fun hspans => by simp [hlambda i hspans.1] at hi
  rw [NodeStates.scopes?, hothers i hout, NodeStates.initial, NodeStates.get?,
    Array.getElem?_replicate]
  split <;> rfl

/-- What is found of a node whose type does not fit. Nothing is if either has an unknown part. -/
def misfit (ctx : Context) (i : NodeIndex) (source target : Ty) : List Diagnostic :=
  if source.containsUnknown || target.containsUnknown
      || ctx.env.definitions.isAssignable source target then
    []
  else
    [.ofMessage (ctx.tree.span i) .typeNotAssignable [source.text, target.text]]

theorem checkAssignable_eq (i : NodeIndex) (source target : Ty) (s : Session) :
    checkAssignable ctx i source target s =
      ((), { s with diagnostics := s.diagnostics ++ misfit ctx i source target }) := by
  unfold checkAssignable misfit
  split
  · rw [List.append_nil]
    rfl
  · rfl

theorem wired_expecting {s₀ : Session} (hvalid : (withoutLambdas ctx []).valid s₀) (target : Ty)
    (rest : List NodeIndex) :
    After (do
      let ty ← Check.resolve ctx root none
      resolveRest ctx rest
      pure ty) s₀ fun ty s' =>
    After (do
      let ty ← Check.resolve ctx root (some target)
      checkAssignable ctx root ty target
      resolveRest ctx rest
      pure ty) s₀ fun ty' s =>
    ty' = ty ∧ (withoutLambdas ctx (misfit ctx root ty target)).Linked s s' := by
  simp only [after_bind, after_pure]
  have hroot : Lockstep (withoutLambdas ctx []) (Check.resolve ctx root (some target))
      (Check.resolve ctx root none) := resolve_follows_unexpected root (some target) none trivial
  have hvalid' : (withoutLambdas ctx []).valid (Check.resolve ctx root (some target) s₀).2 :=
    fun i hi => ((hroot.before s₀).scopes i).trans (hvalid i hi)
  obtain ⟨hty, hlinked⟩ := hroot.step ((Pairing.linked_iff_eq rfl).mpr rfl) hvalid'
  have hsame := (Pairing.linked_iff_eq rfl).mp hlinked
  simp only [After, hsame, hty, checkAssignable_eq]
  generalize (Check.resolve ctx root (some target) s₀).2 = s1 at hvalid'
  generalize (Check.resolve ctx root (some target) s₀).1 = ty
  have hrest : Lockstep (withoutLambdas ctx (misfit ctx root ty target)) (resolveRest ctx rest)
      (resolveRest ctx rest) := resolveRest_lockstep resolve_follows_unexpected rest
  refine ⟨trivial, (hrest.step ⟨s1.diagnostics, [], ?_, ?_⟩ fun i hi => ?_).2⟩
  · rw [List.append_nil]
    rfl
  · rw [List.append_nil]
  · exact ((hrest.before _).scopes i).trans (hvalid' i hi)

theorem checkRoot_expecting (hacyclic : ctx.tree.AcyclicBelow root)
    (hlambda : ∀ i, ctx.tree.Reaches root i → ctx.tree.isLambda i = false) (target : Ty) :
    (checkRoot ctx root σ none).After (.start ctx table) fun ty s' =>
      (checkRoot ctx root σ (some target)).After (.start ctx table) fun ty' s =>
        ty' = ty ∧ (withoutLambdas ctx (misfit ctx root ty target)).Linked s s' :=
  wired_expecting (wire_withoutLambdas hacyclic hlambda) target (ctx.tree.descendants root)

/-- Without lambdas, a check that expects a type of the root comes to the same as one that expects
nothing, up to one finding: that the root does not fit. -/
theorem expected_type_without_lambdas (hacyclic : ctx.tree.AcyclicBelow root)
    (hlambda : ∀ i, ctx.tree.Reaches root i → ctx.tree.isLambda i = false) (target : Ty)
    {result : CheckResult} {table' : SymbolTable}
    (hcheck : check ctx table root σ none = (result, table')) :
    ∃ before after, result.diagnostics = before ++ after ∧
      check ctx table root σ (some target) = ({ result with
        diagnostics := before ++ misfit ctx root result.rootType target ++ after }, table') := by
  have hexpecting : (checkRoot ctx root σ none).After (.start ctx table) _ :=
    checkRoot_expecting hacyclic hlambda target
  unfold check at hcheck ⊢
  simp only [StateT.run] at hcheck ⊢
  rcases hnone : checkRoot ctx root σ none (.start ctx table) with ⟨ty, s'⟩
  rcases hsome : checkRoot ctx root σ (some target) (.start ctx table) with ⟨ty', s⟩
  simp only [After, hnone, hsome] at hexpecting
  obtain ⟨rfl, before, after, hfound, rfl⟩ := hexpecting
  rw [hnone] at hcheck
  cases hcheck
  have hfound' : s.diagnostics = before ++ misfit ctx root ty' target ++ after := hfound
  exact ⟨before, after, rfl, by simp only [hfound']⟩

theorem Tree.isLambda_eq_false {t : Tree} (h : ∀ node ∈ t.nodes.toList, node.kind.isLambda = false)
    (i : NodeIndex) : t.isLambda i = false := by
  unfold isLambda kind?
  cases hnode : t.get? i with
  | none => rfl
  | some node => exact h node (mem_nodes_of_get hnode)

/-- A number is expected of `if (v is string) v else v`, which may be a text. -/
theorem unfit_root_found_once : ∃ result table',
    check guardedContext guardedTable 5 0 none = (result, table') ∧ result.diagnostics = [] ∧
      check guardedContext guardedTable 5 0 (some Ty.number) = ({ result with diagnostics :=
        [.ofMessage Span.empty .typeNotAssignable ["number | string", "number"]] }, table') := by
  have hacyclic : guardedContext.tree.Acyclic := .of_earlier (by decide)
  have hlambda := Tree.isLambda_eq_false (t := guardedContext.tree) (by decide)
  rcases hcheck : check guardedContext guardedTable 5 0 none with ⟨result, table'⟩
  have hclean : (check guardedContext guardedTable 5 0 none).1.diagnostics = [] := by decide +kernel
  have hmisfit : misfit guardedContext 5 (check guardedContext guardedTable 5 0 none).1.rootType
      Ty.number = [.ofMessage Span.empty .typeNotAssignable ["number | string", "number"]] := by
    decide +kernel
  rw [hcheck] at hclean hmisfit
  obtain ⟨before, after, hfound, htarget⟩ := expected_type_without_lambdas (hacyclic.below 5)
    (fun i _ => hlambda i) Ty.number hcheck
  obtain ⟨rfl, rfl⟩ := List.append_eq_nil_iff.mp (hfound.symm.trans hclean)
  exact ⟨result, table', rfl, hclean, htarget.trans (by rw [hmisfit]; rfl)⟩

end ScriptTyping
