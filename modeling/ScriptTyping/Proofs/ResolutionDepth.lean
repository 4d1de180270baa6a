import ScriptTyping.Proofs.Requests
import ScriptTyping.Proofs.Upkeep

/-!
# The depth of a resolution

A call of the resolver gives back the levels that it takes, so a computation makes all its calls at
the depth at which it starts. Hence the depth and the levels that are left make up the limit at
every call of a check, and a resolver that asks the session how deep it is stops at the same nodes.
-/

namespace ScriptTyping

open Session Check

variable {α : Type} {ctx : Context} {table : SymbolTable} {root i : NodeIndex} {scope : ScopeId}
  {wanted expected : Option Ty} {s : Session} {c : Request} {resolve : Resolver}
  {remaining below steps : Nat}

/-- A call of the resolver ends at the depth at which it starts. -/
def KeepsDepth (resolve : Resolver) : Prop :=
  ∀ k expected s, (resolve k expected s).2.depth = s.depth

section Depth

variable {m : Resolver → Check α} (hkeeps : KeepsDepth resolve)

include hkeeps

theorem Asking.depth (h : Asking m) (s : Session) : (m resolve s).2.depth = s.depth :=
  h.stays (fun t => t.depth = s.depth) (fun _ hdepth hoff => hdepth.trans hoff)
    (fun k e t ht => (hkeeps k e t).trans ht) rfl

theorem Asking.makes_depth (h : Asking m) (hmakes : Makes m resolve s c) :
    c.session.depth = s.depth := by
  obtain ⟨answer, hne⟩ := hmakes
  by_contra hwrong
  -- A session at another depth stays at one, so what happens there cannot matter.
  refine hne (h.same (fun t => t.depth ≠ s.depth)
    (fun _ hdepth hoff heq => hoff (hdepth.symm.trans heq)) ?_ ?_ fun hoff => hoff ?_)
  · intro k e t ht
    rwa [hkeeps k e t]
  · intro k e t ht
    rw [hkeeps k e t, not_not] at ht
    exact answering_of_ne fun heq => hwrong (heq ▸ ht)
  · exact h.depth hkeeps s

theorem resolveNode_depth : KeepsDepth (resolveNode ctx resolve) := by
  intro i expected s
  change (resolveNode ctx resolve i expected).After s fun _ s' => s'.depth = s.depth
  unfold resolveNode
  simp only [after_bind, after_get]
  split
  · rfl
  · split
    · rename_i sc node _ _
      have hkind : (resolveKind ctx resolve i sc expected node.kind s.entered).2.depth = _ :=
        (resolveKind_asking i sc expected node.kind).depth hkeeps s.entered
      exact (congrArg (· - 1) hkind).trans (Nat.add_sub_cancel s.depth 1)
    · rfl

end Depth

theorem resolveWithin_depth (ctx : Context) (remaining : Nat) :
    KeepsDepth (resolveWithin ctx remaining) := by
  induction remaining with
  | zero =>
    intro i expected s
    have hcall : Call ctx 0 i s (resolveWithin ctx 0 i expected s).2 :=
      resolveWithin_call ctx 0 i expected s
    generalize (resolveWithin ctx 0 i expected s).2 = s' at hcall ⊢
    cases hcall with
    | done => rfl
    | missing => rfl
    | limit =>
      unfold Session.recorded Session.tooDeep
      split <;> rfl
  | succ below ih =>
    rw [resolveWithin_succ]
    exact resolveNode_depth ih

/-! ## Every call is on its level -/

namespace Check.OnLevel

theorem of_makes {m : Resolver → Check α} (h : OnLevel ctx remaining s) (hm : Asking m)
    (hkeeps : KeepsDepth resolve) (hmakes : Makes m resolve s c) :
    OnLevel ctx remaining c.session := by
  rwa [OnLevel, hm.makes_depth hkeeps hmakes]

theorem nested (h : OnLevel ctx (below + 1) s)
    (hmakes : Makes (fun resolve => resolveNode ctx resolve i expected) (resolveWithin ctx below)
      s c) : OnLevel ctx below c.session := by
  obtain ⟨-, sc, kind, -, -, hmakes⟩ := hmakes.of_node
  have hentered : OnLevel ctx below s.entered := h.enter
  exact hentered.of_makes (resolveKind_asking i sc expected kind) (resolveWithin_depth ctx below)
    hmakes

end Check.OnLevel

theorem wired_depth (ctx : Context) (table : SymbolTable) (root : NodeIndex) (scope : ScopeId) :
    (wired ctx table root scope).depth = 0 := by
  have hkept : KeptByWiring fun s => s.depth = 0 :=
    { symbol := fun _ h => h, truths := id, declared := id, scope := id, conjunction := id
      wired := fun _ h => h }
  exact (hkept.wire ctx root scope (.start ctx table) rfl).2

theorem Makes.onLevel
    (hmakes : Makes (fun resolve => resolveTree ctx resolve root wanted) (Check.resolve ctx)
      (wired ctx table root scope) c) : OnLevel ctx ctx.options.maxResolutionDepth c.session :=
  have hstart : OnLevel ctx ctx.options.maxResolutionDepth (wired ctx table root scope) :=
    .of_depth_eq_zero (wired_depth ctx table root scope)
  hstart.of_makes (resolveTree_asking root wanted) (resolveWithin_depth ctx _) hmakes

theorem Called.onLevel (h : Called ctx table root scope wanted remaining c) :
    OnLevel ctx remaining c.session := by
  induction h with
  | outer h => exact h.onLevel
  | nested _ h ih => exact ih.nested h

/-! ## Asking for the depth -/

/-- Resolves a node by comparing the depth of the session with the limit. The steps only bound the
recursion. -/
def Check.resolveByDepth (ctx : Context) (steps : Nat) (i : NodeIndex) (expected : Option Ty) :
    Check Ty := do
  let s ← get
  match s.nodes.type? i with
  | some ty => pure ty
  | none =>
    match s.nodes.scopes? i, ctx.tree.get? i with
    | some scopes, some node =>
      if ctx.options.maxResolutionDepth ≤ s.depth then
        reportTooDeep ctx i
        record i .unknown .none
        pure .unknown
      else
        match steps with
        | 0 => pure .unknown
        | steps + 1 =>
          enter
          let (ty, binding) ←
            resolveKind ctx (resolveByDepth ctx steps) i scopes expected node.kind
          leave
          record i ty binding
          pure ty
    | _, _ => pure .unknown

theorem resolveByDepth_succ :
    resolveByDepth ctx (steps + 1) i expected s =
      if ctx.options.maxResolutionDepth ≤ s.depth then resolveWithin ctx 0 i expected s
      else resolveNode ctx (resolveByDepth ctx steps) i expected s := by
  unfold resolveWithin resolveNode
  rw [resolveByDepth, get_bind_apply, get_bind_apply, get_bind_apply]
  cases s.nodes.type? i with
  | some ty => exact (ite_self _).symm
  | none =>
    cases s.nodes.scopes? i with
    | none => exact (ite_self _).symm
    | some sc =>
      cases ctx.tree.get? i with
      | none => exact (ite_self _).symm
      | some node => exact apply_ite (fun m : Check Ty => m s) _ _ _

/-- On its level a resolver that knows the levels left does what the one does that asks the session
for its depth. -/
theorem resolveByDepth_eq (hlevel : OnLevel ctx remaining s) (hsteps : remaining < steps) :
    resolveByDepth ctx steps i expected s = resolveWithin ctx remaining i expected s := by
  induction remaining generalizing steps i expected s with
  | zero =>
    obtain ⟨steps, rfl⟩ := Nat.exists_eq_add_one.mpr hsteps
    rw [resolveByDepth_succ, if_pos (hlevel.eq_zero_iff.mp rfl)]
  | succ below ih =>
    obtain ⟨steps, rfl⟩ := Nat.exists_eq_add_one.mpr (Nat.zero_lt_of_lt hsteps)
    rw [resolveByDepth_succ, if_neg (mt hlevel.eq_zero_iff.mpr below.succ_ne_zero),
      resolveWithin_succ]
    refine resolveNode_determined (keepsTable_resolveWithin ctx below) fun c hc => ?_
    exact ih (hlevel.nested hc) (Nat.lt_of_succ_lt_succ hsteps)

/-- A whole check is the same with the resolver that asks the session for its depth, for any number
of steps beyond the limit. -/
theorem checkRoot_byDepth (ctx : Context) (table : SymbolTable) (root : NodeIndex)
    (scope : ScopeId) (wanted : Option Ty) (hsteps : ctx.options.maxResolutionDepth < steps) :
    checkRoot ctx root scope wanted (.start ctx table) =
      (do wire ctx root scope; resolveTree ctx (resolveByDepth ctx steps) root wanted : Check Ty)
        (.start ctx table) := by
  rw [checkRoot_eq]
  refine Eq.symm (resolveTree_determined fun c hc => ?_)
  exact resolveByDepth_eq hc.onLevel hsteps

end ScriptTyping
