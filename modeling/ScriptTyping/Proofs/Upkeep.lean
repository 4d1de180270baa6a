import ScriptTyping.Proofs.Coverage

/-!
# What both phases keep

A property of sessions that every single change keeps is kept by a whole check. The changes of each
phase are few, so such a property is looked at change by change and not function by function.
-/

namespace ScriptTyping

open Session Check

variable {ctx : Context} {I : Session → Prop} {i root : NodeIndex} {σ : ScopeId}
  {expected : Option Ty} {table : SymbolTable} {s s' : Session}

/-! ## The first phase -/

/-- The changes that name things keep the property. Symbols of the host are not added. -/
structure KeptByNaming (I : Session → Prop) : Prop where
  symbol : ∀ {s name origin}, (∀ ty c, origin ≠ .host ty c) → I s →
    I { s with table := (s.table.addSymbol ⟨name, origin⟩).2 }
  truths : ∀ {s c ids}, I s → I { s with truths := s.truths.insert c ids }
  declared : ∀ {s d id}, I s → I { s with declared := s.declared.insert d id }

/-- All changes of the first phase keep the property. -/
structure KeptByWiring (I : Session → Prop) : Prop extends KeptByNaming I where
  scope : ∀ {s σ ids}, I s → I { s with table := (s.table.addScope (some σ) ids).2 }
  conjunction : ∀ {s c σ}, I s → I { s with conjunctions := s.conjunctions.insert c σ }
  wired : ∀ {s i sc}, s.nodes.get? i = some .unresolved → I s →
    I { s with nodes := s.nodes.set i (.wired sc) }

namespace KeptByNaming

variable (hI : KeptByNaming I)

include hI

theorem addSymbol (name : String) {origin : Origin} (hne : ∀ ty c, origin ≠ .host ty c) :
    Keeps I (addSymbol ⟨name, origin⟩) fun _ => True :=
  fun _ hs => ⟨trivial, hI.symbol hne hs⟩

theorem narrowName (name : String) (g : NodeIndex) (σ : ScopeId) :
    Keeps I (narrowName name g σ) fun _ => True := by
  refine .get_bind fun s _ => ?_
  dsimp only
  split
  · exact .pure trivial
  · exact .ite ((hI.addSymbol name (by simp)).bind fun _ _ => .pure trivial) (.pure trivial)

theorem rememberTruths (c : NodeIndex) (ids : List SymbolId) :
    Keeps I (rememberTruths c ids) fun _ => True :=
  .modify fun _ hs => hI.truths hs

theorem declare (d : NodeIndex) (name : String) (isConst : Bool) :
    Keeps I (declare d name isConst) fun _ => True :=
  (hI.addSymbol name (by simp)).bind fun _ _ =>
    (Keeps.modify fun _ hs => hI.declared hs).bind fun _ _ => .pure trivial

theorem declareStatements (statements : List NodeIndex) :
    Keeps I (declareStatements ctx statements) fun _ => True := by
  induction statements with
  | nil => exact .pure trivial
  | cons i rest ih =>
    unfold Check.declareStatements
    split
    · exact (hI.declare i _ _).bind fun _ _ => ih.bind fun _ _ => .pure trivial
    · exact ih

theorem addParameters (l : NodeIndex) (names : List String) (k : Nat) :
    Keeps I (addParameters l names k) fun _ => True := by
  induction names generalizing k with
  | nil => exact .pure trivial
  | cons name rest ih =>
    exact (hI.addSymbol name (by simp)).bind fun _ _ => (ih (k + 1)).bind fun _ _ => .pure trivial

end KeptByNaming

namespace KeptByWiring

variable (hI : KeptByWiring I)

include hI

theorem addScope (σ : ScopeId) (ids : List SymbolId) : Keeps I (addScope σ ids) fun _ => True :=
  fun _ hs => ⟨trivial, hI.scope hs⟩

theorem narrowedScope (σ : ScopeId) (ids : List SymbolId) :
    Keeps I (narrowedScope σ ids) fun _ => True :=
  .ite (.pure trivial) (hI.addScope σ _)

theorem rememberConjunction (c : NodeIndex) (σ : ScopeId) :
    Keeps I (rememberConjunction c σ) fun _ => True :=
  .modify fun _ hs => hI.conjunction hs

theorem truthsWithin (depth : Nat) (c : NodeIndex) (σ : ScopeId) :
    Keeps I (truthsWithin ctx depth c σ) fun _ => True := by
  induction depth generalizing c σ with
  | zero => exact .pure trivial
  | succ depth ih =>
    refine .get_bind fun s _ => ?_
    split
    · exact .pure trivial
    · split
      · split
        · exact .pure trivial
        · exact (hI.narrowName _ c σ).bind fun ids _ =>
            (hI.rememberTruths c ids).bind fun _ _ => .pure trivial
      · exact (ih _ σ).bind fun left _ => (hI.narrowedScope σ left).bind fun τ _ =>
          (hI.rememberConjunction c τ).bind fun _ _ => (ih _ τ).bind fun right _ =>
            (hI.rememberTruths c _).bind fun _ _ => .pure trivial
      · exact .pure trivial

theorem childWires (i : NodeIndex) (kind : NodeKind) (σ : ScopeId) :
    Keeps I (childWires ctx i kind σ) fun _ => True := by
  cases kind with
  | conditional condition thenBranch elseBranch =>
    exact (hI.truthsWithin _ condition σ).bind fun ids _ =>
      (hI.narrowedScope σ ids).bind fun _ _ => .pure trivial
  | conjunction left right =>
    exact (hI.truthsWithin _ i σ).bind fun _ _ => .get_bind fun _ _ => .pure trivial
  | lambda params body =>
    exact (hI.addParameters i _ 0).bind fun ids _ =>
      (hI.addScope σ ids).bind fun _ _ => .pure trivial
  | block statements =>
    exact (hI.declareStatements statements).bind fun ids _ =>
      (hI.addScope σ ids).bind fun _ _ => .pure trivial
  | declaration name isConst ascription initializer =>
    refine .get_bind fun s _ => .ite ?_ (.pure trivial)
    exact (hI.declare i name isConst).bind fun _ _ => .pure trivial
  | _ => exact .pure trivial

theorem assignScopes (i : NodeIndex) (sc : NodeScopes) :
    Keeps I (assignScopes i sc) fun _ => True := by
  intro s hs
  simp only [Check.assignScopes, after_modifyGet, NodeStates.assignScopes?]
  split
  · rename_i nodes hassigned
    split at hassigned
    · rename_i hunresolved
      cases hassigned
      exact ⟨trivial, hI.wired hunresolved hs⟩
    · cases hassigned
  · exact ⟨trivial, hs⟩

theorem wireWithin (depth : Nat) (i : NodeIndex) (σ : ScopeId) :
    Keeps I (wireWithin ctx depth i σ) fun _ => True := by
  induction depth generalizing i σ with
  | zero => exact .pure trivial
  | succ depth ih =>
    unfold Check.wireWithin
    split
    · exact .pure trivial
    · refine (hI.childWires i _ σ).bind fun wires _ => (hI.assignScopes i _).bind fun _ _ => ?_
      exact .ite (.forM (fun w : NodeIndex × ScopeId => ih w.1 w.2) _) (.pure trivial)

theorem wire (ctx : Context) (root : NodeIndex) (σ : ScopeId) :
    Keeps I (wire ctx root σ) fun _ => True :=
  hI.wireWithin _ root σ

end KeptByWiring

/-- Nothing has been found yet. -/
structure Session.Fresh (s : Session) : Prop where
  diagnostics : s.diagnostics = []
  limit : s.depthExceeded = false
  resolution : ∀ n, s.nodes.resolution? n = none

theorem fresh_keptByWiring : KeptByWiring Fresh where
  symbol _ h := ⟨h.diagnostics, h.limit, h.resolution⟩
  truths h := ⟨h.diagnostics, h.limit, h.resolution⟩
  declared h := ⟨h.diagnostics, h.limit, h.resolution⟩
  scope h := ⟨h.diagnostics, h.limit, h.resolution⟩
  conjunction h := ⟨h.diagnostics, h.limit, h.resolution⟩
  wired {s i sc} hunresolved h := by
    refine ⟨h.diagnostics, h.limit, fun n => ?_⟩
    by_cases hin : i = n
    · subst hin
      simp [NodeStates.resolution?, NodeStates.get?_set_self hunresolved, NodeState.resolution?]
    · rw [NodeStates.resolution?, NodeStates.get?_set_of_ne _ hin]
      exact h.resolution n

theorem Session.fresh_start (ctx : Context) (table : SymbolTable) : (start ctx table).Fresh := by
  refine ⟨rfl, rfl, fun n => ?_⟩
  simp only [start, NodeStates.resolution?, NodeStates.initial, NodeStates.get?,
    Array.getElem?_replicate]
  split <;> rfl

theorem wire_fresh (ctx : Context) (table : SymbolTable) (root : NodeIndex) (σ : ScopeId) :
    (wire ctx root σ).After (.start ctx table) fun _ s => s.Fresh :=
  (fresh_keptByWiring.wire ctx root σ _ (fresh_start ctx table)).2

/-! ## The second phase -/

/-- The changes of the second phase keep the property. Of what is recorded of a node it is known how
it was found. -/
structure KeptByResolving (ctx : Context) (I : Session → Prop) : Prop where
  report : ∀ {s} (found : Diagnostic), found.code ≠ Message.expressionTooDeep.code → I s →
    I { s with diagnostics := s.diagnostics ++ [found] }
  symbolTypes : ∀ {s types}, I s → I { s with symbolTypes := types }
  counters : ∀ {s inProgress depth}, I s → I { s with inProgress := inProgress, depth := depth }
  limit : ∀ {s i kind}, ctx.tree.kind? i = some kind → I s →
    I ((s.tooDeep ctx i).recorded i .unknown .none)
  record : ∀ {s i sc kind below expected}, ctx.tree.kind? i = some kind →
    s.nodes.scopes? i = some sc →
    (resolveKind ctx (resolveWithin ctx below) i sc expected kind).After s fun found s' =>
      s.Onward s' → I s' → I (s'.recorded i found.1 found.2)

namespace KeptByResolving

variable (hI : KeptByResolving ctx I) {resolve : Resolver} {sc : NodeScopes} {kind : NodeKind}
  {cs : List NodeIndex}

include hI

theorem move (h : Move ctx resolve table i sc cs s s')
    (hresolve : ∀ k e s, I s → I (resolve k e s).2) (hs : I s) : I s' := by
  cases h with
  | visit s c expected => exact hresolve c expected s hs
  | demand s hread hsym hd => exact hresolve _ none s hs
  | target s hread hsym hk => exact hresolve _ none s hs
  | report s found hcycle hdeep => exact hI.report found hdeep hs
  | circular s hread hsym hd found hcode => exact hI.report found (by rw [hcode]; decide) hs
  | symbol => exact hI.symbolTypes hs
  | parameter => exact hI.symbolTypes hs

theorem work (h : Work ctx resolve table i sc cs s s')
    (hresolve : ∀ k e s, I s → I (resolve k e s).2) (hs : I s) : I s' := by
  induction h with
  | start => exact hs
  | move _ hm ih => exact hI.move hm hresolve (ih hs)

theorem resolved (h : Resolved ctx resolve i sc kind s s')
    (hresolve : ∀ k e s, I s → I (resolve k e s).2) (hs : I s) : I s' := by
  cases h with
  | plain _ _ hwork _ => exact hI.work hwork hresolve hs
  | @declaration order s s1 _ _ hwork ty =>
    have hbegun : I (s.begun i) := hI.counters hs
    have hdone : I { s1 with inProgress := s1.inProgress.filter (· ≠ i) } :=
      hI.counters (hI.work hwork hresolve hbegun)
    exact hI.symbolTypes hdone

theorem resolveWithin (levels : Nat) : ∀ i e s, I s → I (resolveWithin ctx levels i e s).2 := by
  refine resolveWithin_induction (P := fun resolve => ∀ i e s, I s → I (resolve i e s).2)
    (fun levels hbelow i e s hs => ?_) levels
  change (Check.resolveWithin ctx levels i e).After s fun _ s' => I s'
  unfold Check.resolveWithin
  simp only [after_bind, after_get]
  split
  · exact hs
  · split
    · rename_i sc node hsc hnode
      split
      · have hlimit : I ((s.tooDeep ctx i).recorded i .unknown .none) :=
          hI.limit (Tree.kind_of_get hnode) hs
        simp only [after_bind, after_reportTooDeep, after_pure]
        exact hlimit
      · rename_i below
        have hk := Tree.kind_of_get hnode
        have honward := resolveWithin_onward ctx below
        have henter : I { s with depth := s.depth + 1 } := hI.counters hs
        simp only [after_bind, enter, leave, Check.record, after_modify, after_pure]
        refine ((resolveKind_resolved (fun k e s => (honward k e s).table) hk _).and
          (hI.record hk (s := { s with depth := s.depth + 1 }) hsc)).mono ?_
        rintro ⟨ty, binding⟩ s1 ⟨⟨-, hresolved⟩, hrecord⟩
        have hs1 : I s1 := hI.resolved hresolved (hbelow below rfl) henter
        have hrecorded : I (s1.recorded i ty binding) := hrecord (hresolved.onward honward) hs1
        exact hI.counters hrecorded
    · exact hs

/-! ## A whole check -/

theorem checkRoot (hwire : (wire ctx root σ).After s fun _ s' => I s') :
    (checkRoot ctx root σ expected).After s fun _ s' => I s' := by
  have hresolve : ∀ i e s, I s → (Check.resolve ctx i e).After s fun _ s' => I s' := fun i e s =>
    hI.resolveWithin ctx.options.maxResolutionDepth i e s
  refine checkRoot_after hwire (hresolve root expected) (fun s ty target hs => ?_) fun s hs =>
    resolveRest_after (fun i _ => hresolve i none) hs
  unfold checkAssignable
  split
  · exact hs
  · have hcode : Message.typeNotAssignable.code ≠ Message.expressionTooDeep.code := by decide
    exact hI.report (.ofMessage (ctx.tree.span root) .typeNotAssignable [ty.text, target.text])
      hcode hs

end KeptByResolving

theorem keptByResolving_of_onward (h : ∀ {s s' : Session}, I s → s.Onward s' → I s') :
    KeptByResolving ctx I where
  report {s} found _ hs := h hs (.report s found)
  symbolTypes hs := h hs (.of_same rfl rfl rfl rfl)
  counters hs := h hs (.of_same rfl rfl rfl rfl)
  limit _ hs := h hs ((onward_tooDeep ctx _ _).trans (onward_recorded _ _ _ _))
  record _ _ _ hs := h hs (onward_recorded _ _ _ _)

/-! ## The depth limit -/

/-- The depth limit is reported once if it has been exceeded, and otherwise not at all. -/
def Session.LimitTold (s : Session) : Prop :=
  s.diagnostics.countP (fun f => f.code == Message.expressionTooDeep.code) =
    if s.depthExceeded then 1 else 0

theorem limitTold_keptByResolving (ctx : Context) : KeptByResolving ctx LimitTold where
  report found hne hs := by
    have hother : (found.code == Message.expressionTooDeep.code) = false := by simpa using hne
    simpa [LimitTold, List.countP_append, hother] using hs
  symbolTypes hs := hs
  counters hs := hs
  limit {s i _} _ hs := by
    unfold LimitTold at hs ⊢
    unfold Session.recorded Session.tooDeep
    cases hexceeded : s.depthExceeded with
    | true => simpa [hexceeded] using hs
    | false =>
      have hcode : (Diagnostic.ofMessage (ctx.tree.span i) .expressionTooDeep []).code =
        Message.expressionTooDeep.code := rfl
      have hnone : s.diagnostics.countP (fun f => f.code == Message.expressionTooDeep.code) = 0 := by
        simpa [hexceeded] using hs
      simp [List.countP_append, hnone, hcode]
  record _ _ _ hs := hs

theorem checkRoot_limitTold (ctx : Context) (table : SymbolTable) (root : NodeIndex) (σ : ScopeId)
    (expected : Option Ty) :
    (checkRoot ctx root σ expected).After (.start ctx table) fun _ s => s.LimitTold := by
  refine (limitTold_keptByResolving ctx).checkRoot ?_
  refine (wire_fresh ctx table root σ).mono fun _ s hs => ?_
  simp [LimitTold, hs.diagnostics, hs.limit]

namespace Session.LimitTold

theorem exceeded_iff (h : s.LimitTold) :
    s.depthExceeded = true ↔ ∃ f ∈ s.diagnostics, f.code = Message.expressionTooDeep.code := by
  have hcount := List.countP_pos_iff (l := s.diagnostics)
    (p := fun f => f.code == Message.expressionTooDeep.code)
  simp only [beq_iff_eq] at hcount
  rw [← hcount, h]
  cases s.depthExceeded <;> simp

theorem count_le_one (h : s.LimitTold) :
    s.diagnostics.countP (fun f => f.code == Message.expressionTooDeep.code) ≤ 1 := by
  rw [h]
  split <;> simp

end Session.LimitTold

end ScriptTyping
