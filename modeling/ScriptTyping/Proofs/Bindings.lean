import ScriptTyping.Proofs.Checking
import ScriptTyping.Proofs.Upkeep

/-!
# Bindings

What the second phase binds a node to, in every run: an identifier to the symbol that its name means
in its own scope, and an assignment to the symbol of its target, which is then a variable. This does
not take a check without findings.
-/

namespace ScriptTyping

open Session Check

variable {ctx : Context} {resolve : Resolver} {table : SymbolTable} {i n root : NodeIndex}
  {base id σ : Nat} {sc : NodeScopes} {kind : NodeKind} {cs : List NodeIndex}
  {s₀ s s' s'' : Session} {expected : Option Ty} {binding : Binding} {r : Resolution}

/-- What may be recorded as the binding of a node. -/
def BindingRule (s : Session) (sc : NodeScopes) (kind : NodeKind) : Binding → Prop
  | .symbol id => ∃ name, kind = .identifier name ∧ s.table.resolve sc.scope name = some id
  | .assignment id => ∃ target value, kind = .assignment target value ∧
      boundSymbol? s target = some id ∧ s.table.isConst id = false
  | _ => True

theorem Session.Onward.resolution (h : s.Onward s') (hr : s.nodes.resolution? n = some r) :
    s'.nodes.resolution? n = some r := by
  rcases h.nodes n with hsame | ⟨r', hwired, -⟩
  · rwa [NodeStates.resolution?, hsame]
  · simp [NodeStates.resolution?, hwired, NodeState.resolution?] at hr

theorem Session.Onward.boundSymbol (h : s.Onward s') (hn : boundSymbol? s n = some id) :
    boundSymbol? s' n = some id := by
  obtain ⟨r, hr, hbinding⟩ := boundSymbol?_eq_some.mp hn
  exact boundSymbol?_eq_some.mpr ⟨r, h.resolution hr, hbinding⟩

theorem BindingRule.onward (h : BindingRule s sc kind binding) (hs : s.Onward s') :
    BindingRule s' sc kind binding := by
  cases binding with
  | symbol id =>
    obtain ⟨name, hkind, hmeant⟩ := h
    exact ⟨name, hkind, by rwa [hs.table]⟩
  | assignment id =>
    obtain ⟨target, value, hkind, hbound, hconst⟩ := h
    exact ⟨target, value, hkind, hs.boundSymbol hbound, by rwa [hs.table]⟩
  | _ => trivial

/-! ## One node -/

theorem resolveIdentifier_binding {name : String} (hresolve : GoesOnward resolve)
    (hk : ctx.tree.kind? i = some (.identifier name)) :
    (resolveIdentifier ctx resolve i sc.scope name).After s fun a s' =>
      BindingRule s' sc (.identifier name) a.2 := by
  have hkeeps : KeepsTable resolve := fun k expected s => (hresolve k expected s).table
  unfold resolveIdentifier
  simp only [after_bind, after_get]
  split
  · exact trivial
  · rename_i id hmeant
    have hworks : Works ctx resolve s.table i sc [] (symbolType ctx resolve id i) :=
      .get_bind fun s' _ => symbolTypeWithin_works hkeeps _ (.meant hk hmeant)
    simp only [after_bind, after_pure]
    refine (hworks s rfl).mono ?_
    rintro ty s1 ⟨htable, -⟩
    exact ⟨name, rfl, by rwa [htable]⟩

theorem resolveAssignment_binding (hresolve : GoesOnward resolve) (target value : NodeIndex) :
    (resolveAssignment ctx resolve target value).After s fun a s' =>
      BindingRule s' sc (.assignment target value) a.2 := by
  unfold resolveAssignment
  split
  · exact trivial
  · simp only [after_bind, after_get]
    refine After.mono (P := fun _ _ => True) trivial fun targetTy s1 _ => ?_
    split
    · exact trivial
    · rename_i id hbound
      split
      · exact trivial
      · rename_i hconst
        simp only [after_bind, after_pure]
        have hvalue : (resolve value (some targetTy)).After s1 fun _ s2 => s1.Onward s2 :=
          hresolve value (some targetTy) s1
        refine hvalue.mono fun valueTy s2 h2 => ?_
        refine (checkAssignable_onward value valueTy targetTy s2).mono fun _ s3 h3 => ?_
        have honward := h2.trans h3
        refine ⟨target, value, rfl, honward.boundSymbol hbound, ?_⟩
        rw [honward.table]
        simpa using hconst

/-- The computation gives a binding that names no symbol of a read or an assignment. -/
def Anonymous (m : Check (Ty × Binding)) : Prop :=
  ∀ s, m.After s fun a _ => ∀ s' sc kind, BindingRule s' sc kind a.2

namespace Anonymous

theorem bind {α : Type} {m : Check α} {f : α → Check (Ty × Binding)} (h : ∀ a, Anonymous (f a)) :
    Anonymous (m >>= f) :=
  fun s => h (m s).1 (m s).2

theorem pure {ty : Ty} {binding : Binding} (h : ∀ s sc kind, BindingRule s sc kind binding) :
    Anonymous (Pure.pure (ty, binding)) :=
  fun _ => h

theorem ite {p : Prop} [Decidable p] {m m' : Check (Ty × Binding)} (h : Anonymous m)
    (h' : Anonymous m') : Anonymous (if p then m else m') := by
  split
  · exact h
  · exact h'

theorem bindingRule {m : Check (Ty × Binding)} (h : Anonymous m) :
    m.After s fun a s' => BindingRule s' sc kind a.2 :=
  h s _ sc kind

end Anonymous

theorem resolveCall_anonymous (callee : Ty) (params : List (String × Ty))
    (arguments : List NodeIndex) : Anonymous (resolveCall ctx resolve callee params arguments) := by
  refine .bind fun ⟨inference, types⟩ => ?_
  dsimp only
  split
  · exact .bind fun _ => .pure fun _ _ _ => trivial
  · exact .pure fun _ _ _ => trivial

theorem resolveInvocation_anonymous (n callee : NodeIndex) (arguments : List NodeIndex) :
    Anonymous (resolveInvocation ctx resolve n callee arguments) := by
  refine .bind fun calleeTy => ?_
  split
  · refine .ite (resolveCall_anonymous _ _ _) ?_
    exact .bind fun _ => .bind fun _ => .pure fun _ _ _ => trivial
  · refine .ite ?_ ?_
    · exact .bind fun _ => .bind fun _ => .pure fun _ _ _ => trivial
    · exact .bind fun _ => .pure fun _ _ _ => trivial

theorem resolveMember_anonymous (n object : NodeIndex) (member : String) :
    Anonymous (resolveMember ctx resolve n object member) := by
  refine .bind fun objectTy => .ite (.pure fun _ _ _ => trivial) ?_
  split
  · exact .bind fun _ => .pure fun _ _ _ => trivial
  · exact .pure fun _ _ _ => trivial
  · exact .bind fun _ => .pure fun _ _ _ => trivial

theorem resolveTypeTest_anonymous (operand target : NodeIndex) :
    Anonymous (resolveTypeTest ctx resolve operand target) := by
  refine .bind fun _ => .bind fun asserted => .bind fun s => ?_
  dsimp only
  split
  · exact .ite (.bind fun _ => .pure fun _ _ _ => trivial) (.pure fun _ _ _ => trivial)
  · exact .pure fun _ _ _ => trivial

theorem resolveDeclaration_anonymous (n : NodeIndex) (isConst : Bool)
    (ascription : Option NodeIndex) (initializer : NodeIndex) :
    Anonymous (resolveDeclaration ctx resolve n isConst ascription initializer) := by
  refine .bind fun _ => .bind fun ty => .bind fun _ => .bind fun s => ?_
  split
  · exact .bind fun _ => .pure fun _ _ _ => trivial
  · exact .pure fun _ _ _ => trivial

theorem resolveTypeRef_anonymous (n : NodeIndex) (name : String) (args : List NodeIndex) :
    Anonymous (resolveTypeRef ctx resolve n name args) := by
  refine .bind fun types => ?_
  split
  · exact .bind fun _ => .pure fun _ _ _ => trivial
  · refine .ite ?_ (.ite (.pure fun _ _ _ => trivial) ?_)
    · exact .ite (.bind fun _ => .pure fun _ _ _ => trivial)
        (.bind fun _ => .pure fun _ _ _ => trivial)
    · split
      · exact .pure fun _ _ _ => trivial
      · exact .pure fun _ _ _ => trivial

theorem resolveKind_binding (hresolve : GoesOnward resolve) (hk : ctx.tree.kind? i = some kind) :
    (resolveKind ctx resolve i sc expected kind).After s fun a s' =>
      BindingRule s' sc kind a.2 := by
  cases kind with
  | identifier name => exact resolveIdentifier_binding hresolve hk
  | assignment target value => exact resolveAssignment_binding hresolve target value
  | conditional condition thenBranch elseBranch => cases elseBranch <;> exact trivial
  | invocation callee arguments trailing => exact (resolveInvocation_anonymous i callee _).bindingRule
  | memberAccess object member => exact (resolveMember_anonymous i object member).bindingRule
  | typeTest operand target => exact (resolveTypeTest_anonymous operand target).bindingRule
  | declaration name isConst ascription initializer =>
    exact (resolveDeclaration_anonymous i isConst ascription initializer).bindingRule
  | typeRef name args => exact (resolveTypeRef_anonymous i name args).bindingRule
  | _ => exact trivial

/-! ## A whole run -/

/-- What is recorded as a binding may be. -/
def Session.Bindings (ctx : Context) (s : Session) : Prop :=
  ∀ n r, s.nodes.resolution? n = some r →
    ∃ kind, ctx.tree.kind? n = some kind ∧ BindingRule s r.scopes kind r.binding

theorem Session.Bindings.onward (h : s.Bindings ctx) (hs : s.Onward s')
    (hnew : ∀ n r, s.nodes.resolution? n = none → s'.nodes.resolution? n = some r →
      ∃ kind, ctx.tree.kind? n = some kind ∧ BindingRule s' r.scopes kind r.binding) :
    s'.Bindings ctx := by
  intro n r hr
  cases hold : s.nodes.resolution? n with
  | none => exact hnew n r hold hr
  | some r' =>
    cases hr.symm.trans (hs.resolution hold)
    obtain ⟨kind, hk, hrule⟩ := h n r hold
    exact ⟨kind, hk, hrule.onward hs⟩

theorem Session.Bindings.of_same (h : s.Bindings ctx) (hs : s.Onward s')
    (hnodes : s'.nodes = s.nodes) : s'.Bindings ctx := by
  refine h.onward hs fun n r hnone hr => ?_
  simp [hnodes, hnone] at hr

theorem Session.Bindings.recorded (h : s.Bindings ctx) {ty : Ty}
    (hrule : ∀ sc, s.nodes.get? i = some (.wired sc) →
      ∃ kind, ctx.tree.kind? i = some kind ∧ BindingRule s sc kind binding) :
    (s.recorded i ty binding).Bindings ctx := by
  have honward := onward_recorded s i ty binding
  refine h.onward honward fun n r hnone hr => ?_
  rcases resolution_recorded hr with hold | ⟨rfl, sc, hwired, rfl⟩
  · simp [hnone] at hold
  · obtain ⟨kind, hk, hrule⟩ := hrule sc hwired
    exact ⟨kind, hk, hrule.onward honward⟩

theorem bindings_keptByResolving (ctx : Context) : KeptByResolving ctx (Bindings ctx) where
  report {s} found _ hs := hs.of_same (.report s found) rfl
  symbolTypes hs := hs.of_same (.of_same rfl rfl rfl rfl) rfl
  counters hs := hs.of_same (.of_same rfl rfl rfl rfl) rfl
  limit {s i kind} hk hs := (hs.of_same (onward_tooDeep ctx s i) (tooDeep_nodes ctx s i)).recorded
    fun _ _ => ⟨kind, hk, trivial⟩
  record {s i sc kind below expected} hk hsc := by
    refine (resolveKind_binding (resolveWithin_onward ctx below) hk).mono ?_
    rintro ⟨ty, binding⟩ s' hrule honward hs
    refine hs.recorded fun sc' hwired => ⟨kind, hk, ?_⟩
    have hscopes := scopes_of_wired hwired
    rw [honward.scopes, hsc] at hscopes
    cases hscopes
    exact hrule

theorem checkRoot_bindings (hp : ctx.tree.Proper root) (htypes : ctx.tree.TypesInPlace root)
    (hhost : table.HostScope σ) :
    (checkRoot ctx root σ expected).After (.start ctx table) fun _ s =>
      ∃ s₀, Layout ctx root table.symbols.size s₀ ∧ s₀.Onward s ∧ s.Bindings ctx := by
  have honward : KeptByResolving ctx fun s =>
      ∃ s₀, Layout ctx root table.symbols.size s₀ ∧ s₀.Onward s :=
    keptByResolving_of_onward fun ⟨s₀, hL, hs⟩ hs' => ⟨s₀, hL, hs.trans hs'⟩
  refine ((honward.checkRoot ?_).and ((bindings_keptByResolving ctx).checkRoot ?_)).mono ?_
  · refine (wire_spec hp hhost.wf hhost.lt).mono ?_
    rintro - s₀ ⟨hwalked, hacc⟩
    exact ⟨s₀, hwalked.layout hp htypes hhost hacc, .refl s₀⟩
  · refine (wire_fresh ctx table root σ).mono fun _ s hs n r hr => ?_
    simp [hs.resolution n] at hr
  · rintro - s ⟨⟨s₀, hL, hs⟩, hbindings⟩
    exact ⟨s₀, hL, hs, hbindings⟩

theorem check_bindings {result : CheckResult} {table' : SymbolTable} (hp : ctx.tree.Proper root)
    (htypes : ctx.tree.TypesInPlace root) (hhost : table.HostScope σ)
    (hcheck : check ctx table root σ expected = (result, table')) :
    ∃ s₀ s, Layout ctx root table.symbols.size s₀ ∧ s₀.Onward s ∧ s.Bindings ctx ∧
      s.nodes = result.nodes ∧ s.table = table' := by
  obtain ⟨s₀, hL, honward, hbindings⟩ : (checkRoot ctx root σ expected).After (.start ctx table) _ :=
    checkRoot_bindings hp htypes hhost
  cases hcheck
  exact ⟨s₀, _, hL, honward, hbindings, rfl, rfl⟩

end ScriptTyping
