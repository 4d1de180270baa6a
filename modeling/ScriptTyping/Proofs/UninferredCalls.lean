import ScriptTyping.Proofs.Checking
import ScriptTyping.Proofs.KnownDefinitions

/-!
# Calls that leave a type parameter uninferred

From known types a check without diagnostics makes unknown ones in one way only: by a call whose
result mentions a type parameter that no argument binds. It happens silently.
-/

namespace ScriptTyping

open Check

variable {ctx : Context} {root n : NodeIndex} {wanted : Option Ty} {table table' : SymbolTable}
  {f f' : Findings} {ty ty' : Ty}

/-! ## What is given -/

structure KnownInputs (ctx : Context) (wanted : Option Ty) (table : SymbolTable) : Prop where
  definitions : ctx.env.definitions.Known
  types : ∀ e ∈ ctx.env.types.entries, e.2.Known
  wanted : ∀ t ∈ wanted, t.Known
  hosts : ∀ {id name ty c}, table.symbol? id = some ⟨name, .host ty c⟩ → ty.Known

/-! ## What a call infers -/

theorem callInference_preserves {P : Inference → Prop} {callee : Ty} {params : List (String × Ty)}
    {arguments : List NodeIndex} {types : NodeIndex → Ty} (hstart : P ⟨callee.freeParams, .empty⟩)
    (hstep : ∀ {i a parameter}, a ∈ arguments → P i →
      P (i.infer ctx.env.definitions parameter (types a))) :
    P (callInference ctx callee params arguments types) := by
  unfold callInference
  refine List.foldlRecOn _ _ hstart ?_
  intro i hi a ha
  exact hstep (mem_resolutionOrder ha).1 hi

theorem free_callInference (ctx : Context) (callee : Ty) (params : List (String × Ty))
    (arguments : List NodeIndex) (types : NodeIndex → Ty) :
    (callInference ctx callee params arguments types).free = callee.freeParams := by
  refine callInference_preserves (P := fun i => i.free = callee.freeParams) rfl ?_
  intro i a parameter _ hi
  rw [Inference.free_infer, hi]

theorem known_callInference (hds : ctx.env.definitions.Known) {callee : Ty}
    {params : List (String × Ty)} {arguments : List NodeIndex} {types : NodeIndex → Ty}
    (htypes : ∀ a ∈ arguments, (types a).Known) :
    (callInference ctx callee params arguments types).bindings.Known := by
  refine callInference_preserves (P := fun i => i.bindings.Known) Substitution.known_empty ?_
  intro i a parameter ha hi
  exact Inference.known_infer hds hi (htypes a ha)

theorem known_callResult {params params' : List (String × Ty)} {result : Ty} {i : Inference}
    (hfree : i.free = (Ty.func params result).freeParams)
    (hinst : (Ty.func params result).instantiate i.finish = .func params' ty) :
    ty.Known ↔ result.Known ∧
      ∀ name ∈ result.paramNames, ∃ t, i.bindings.get? name = some t ∧ t.Known := by
  rw [Ty.instantiate_func, Ty.func.injEq] at hinst
  rw [← hinst.2, Ty.known_instantiate]
  refine and_congr_right fun _ => forall₂_congr fun name hname => ?_
  have hmem : name ∈ i.free := by
    rw [hfree, Ty.freeParams, List.mem_eraseDups, Ty.paramNames]
    exact List.mem_append_right _ hname
  rw [Inference.get?_finish, if_pos hmem]
  cases i.bindings.get? name <;> simp

namespace Findings

/-- Some type parameter in the callee's result is bound by no argument. -/
def Uninferred (ctx : Context) (f : Findings) (n : NodeIndex) : Prop :=
  ∃ callee arguments trailing params result types,
    ctx.tree.kind? n = some (.invocation callee arguments trailing) ∧
    f.type? callee = some (.func params result) ∧
    f.HaveTypes (arguments ++ trailing.toList) types ∧
    ∃ name ∈ result.paramNames, (callInference ctx (.func params result) params
      (arguments ++ trailing.toList) fun i => (f.type? i).getD .unknown).bindings.get? name = none

theorem Uninferred.mono (h : f.Uninferred ctx n) (hf : f.Extends f') : f'.Uninferred ctx n := by
  obtain ⟨callee, arguments, trailing, params, result, types, hk, hcallee, htypes, name, hname,
    hnone⟩ := h
  refine ⟨callee, arguments, trailing, params, result, types, hk, hf.type hcallee,
    hf.haveTypes htypes, name, hname, ?_⟩
  rw [← hnone, callInference_congr fun a ha => hf.getD_type (htypes.recorded ha)]

/-- All types that have been found are known. -/
structure Known (f : Findings) : Prop where
  nodes : ∀ {n ty}, f.type? n = some ty → ty.Known
  symbols : ∀ {id ty}, f.symbolTypes.get? id = some ty → ty.Known

namespace Known

variable (hf : f.Known)

include hf

theorem haveTypes {ns : List NodeIndex} {types : List Ty} (h : f.HaveTypes ns types) :
    ∀ t ∈ types, t.Known := by
  intro t ht
  obtain ⟨n, -, hn⟩ := h.of_mem ht
  exact hf.nodes hn

theorem symbol (hin : KnownInputs ctx wanted f.table) {id : SymbolId}
    (h : f.SymbolHasType ctx id ty) : ty.Known := by
  cases h with
  | host hsym => exact hin.hosts hsym
  | source _ hty => exact hf.symbols hty
  | parameter _ hty => exact hf.symbols hty
  | narrowed _ _ _ _ hty => exact hf.symbols hty

theorem declares {isConst : Bool} {ascription : Option NodeIndex} {initializer : NodeIndex}
    (h : f.Declares ctx isConst ascription initializer ty) : ty.Known := by
  obtain ⟨value, hvalue, hty⟩ := h
  cases ascription with
  | none =>
    simp only [hty, declaredType]
    split
    · exact hf.nodes hvalue
    · exact (Ty.known_widen value).mpr (hf.nodes hvalue)
  | some a => exact hf.nodes hty.1

theorem infers (hds : ctx.env.definitions.Known) {free : List String} {before : List Argument}
    {i : Inference} (h : f.Infers ctx free before i) : i.bindings.Known := by
  induction h with
  | start => exact Substitution.known_empty
  | argument _ ha ih => exact Inference.known_infer hds ih (hf.nodes ha)

theorem asks (hds : ctx.env.definitions.Known) {expected : Option Ty} {c : NodeIndex}
    {kind : NodeKind} (he : ∀ t ∈ expected, t.Known) (h : f.Asks ctx expected c ty kind) :
    ty.Known := by
  have hboolean : Ty.boolean.Known := rfl
  cases kind with
  | collection elements =>
    obtain ⟨list, hlist, helement⟩ := Option.bind_eq_some_iff.mp h.2
    unfold Ty.listElement? at helement
    split at helement
    · exact (Ty.known_nominal _ _ _).mp (he _ hlist) _ rfl ty (List.mem_of_head? helement)
    · cases helement
  | conditional condition thenBranch elseBranch =>
    rcases h with ⟨-, rfl⟩ | ⟨-, hty⟩
    · exact hboolean
    · exact he ty hty
  | conjunction left right => exact h.2 ▸ hboolean
  | block statements => exact he ty h.2
  | invocation callee arguments trailing =>
    obtain ⟨params, result, before, a, after, i, hcallee, horder, -, hi, rfl⟩ := h
    have ha : a ∈ resolutionOrder ctx (argumentsOf (arguments ++ trailing.toList) params) := by
      simp [horder]
    obtain ⟨-, name, hparam⟩ := mem_resolutionOrder ha
    have hknown := ((Ty.known_func _ _).mp (hf.nodes hcallee)).1 _ hparam
    exact hknown.instantiate (hf.infers hds hi)
  | lambda params body =>
    obtain ⟨-, hresult⟩ := h
    unfold expectedResult at hresult
    split at hresult
    · split at hresult
      · cases hresult
      · cases hresult
        exact ((Ty.known_func _ _).mp (he _ rfl)).2
    · cases hresult
  | declaration name isConst ascription initializer =>
    cases ascription with
    | none => exact h.elim
    | some a => exact hf.nodes h.2
  | assignment target value => exact hf.nodes h.2
  | _ => exact h.elim

theorem expects (hin : KnownInputs ctx wanted f.table) (h : f.Expects ctx root wanted n ty) :
    ty.Known := by
  induction h with
  | root h => exact hin.wanted _ h
  | asked _ _ h => exact hf.asks hin.definitions (by simp) h
  | passed _ _ _ h ih => exact hf.asks hin.definitions (by simpa using ih) h

theorem parameters {params : List LambdaParam} {symbols bound : List SymbolId}
    {resolved : List (String × Ty)} (h : f.ParametersTyped ctx params symbols resolved bound) :
    ∀ p ∈ resolved, p.2.Known := by
  unfold ParametersTyped at h
  split at h
  · rcases h with ⟨rfl, -⟩ | ⟨id, ty, -, -, hty, rfl⟩
    · simp
    · simpa using hf.symbols hty
  · obtain ⟨-, -, htypes, -⟩ := h
    intro p hp
    have hmem : some p.2 ∈ symbols.map f.symbolTypes.get? :=
      htypes ▸ List.mem_map_of_mem (f := (some ·.2)) hp
    obtain ⟨id, -, hid⟩ := List.mem_map.mp hmem
    exact hf.symbols hid

theorem invocation (hds : ctx.env.definitions.Known) {r : Resolution} {callee : NodeIndex}
    {arguments : List NodeIndex} {trailing : Option NodeIndex}
    (hk : ctx.tree.kind? n = some (.invocation callee arguments trailing))
    (h : f.TypingRule ctx n r (.invocation callee arguments trailing))
    (hnot : ¬ f.Uninferred ctx n) : r.ty.Known := by
  obtain ⟨calleeTy, types, hcallee, htypes, ⟨rfl, -⟩ |
    ⟨params, result, params', rfl, -, hinst, -⟩⟩ := h
  · exact absurd (hf.nodes hcallee) Ty.known_unknown
  · rw [known_callResult (free_callInference ..) hinst]
    refine ⟨((Ty.known_func _ _).mp (hf.nodes hcallee)).2, fun name hname => ?_⟩
    have hknown : (callInference ctx (.func params result) params (arguments ++ trailing.toList)
        fun i => (f.type? i).getD .unknown).bindings.Known := by
      refine known_callInference hds fun a ha => ?_
      obtain ⟨ty, hty⟩ := htypes.recorded ha
      rw [hty]
      exact hf.nodes hty
    cases hget : (callInference ctx (.func params result) params (arguments ++ trailing.toList)
        fun i => (f.type? i).getD .unknown).bindings.get? name with
    | none =>
      exact absurd ⟨callee, arguments, trailing, params, result, types, hk, hcallee, htypes, name,
        hname, hget⟩ hnot
    | some t => exact ⟨t, rfl, hknown name t hget⟩

theorem rule (hin : KnownInputs ctx wanted f.table) {r : Resolution} {kind : NodeKind}
    (hk : ctx.tree.kind? n = some kind) (h : f.TypingRule ctx n r kind)
    (hnot : ¬ f.Uninferred ctx n) : r.ty.Known := by
  have hboolean : Ty.boolean.Known := rfl
  have hnull : Ty.null.Known := rfl
  cases kind with
  | identifier name =>
    obtain ⟨id, -, -, hty⟩ := h
    exact hf.symbol hin hty
  | literal value =>
    rw [h.1]
    rcases value with (_ | _ | _) | _ <;> rfl
  | collection elements =>
    obtain ⟨types, htypes, -, hty⟩ := h
    have hknown := hf.haveTypes htypes
    have hnone : types.any Ty.isUnknown = false :=
      List.any_eq_false.mpr fun t ht => by simp [(hknown t ht).not_isUnknown]
    rw [hty, hnone]
    simpa [Ty.listOf] using hknown
  | conditional condition thenBranch elseBranch =>
    obtain ⟨test, yes, -, -, hyes, -, hty⟩ := h
    have hyes := hf.nodes hyes
    cases elseBranch with
    | none => simp [hty, hyes.not_isUnknown, hyes, hnull]
    | some e =>
      obtain ⟨no, hno, hty⟩ := hty
      rw [hty]
      exact Definitions.known_commonSupertype hyes (hf.nodes hno)
  | invocation callee arguments trailing => exact hf.invocation hin.definitions hk h hnot
  | memberAccess object member =>
    obtain ⟨objectTy, hobject, ⟨rfl, -⟩ | ⟨found, -, -, hty, hfound⟩⟩ := h
    · exact absurd (hf.nodes hobject) Ty.known_unknown
    · rw [hty]
      exact Definitions.known_findMembers hin.definitions
        ((Ty.known_widen objectTy).mpr (hf.nodes hobject)) (hfound ▸ List.mem_singleton_self found)
  | lambda params body =>
    obtain ⟨τ, data, resolved, bound, result, -, -, hbody, hty, -, hparams⟩ := h
    rw [hty, Ty.known_func]
    exact ⟨hf.parameters hparams, hf.nodes hbody⟩
  | typeTest operand target =>
    obtain ⟨tested, asserted, -, -, hty, -⟩ := h
    exact hty ▸ hboolean
  | conjunction left right =>
    obtain ⟨first, second, -, -, -, -, hty, -⟩ := h
    exact hty ▸ hboolean
  | block statements =>
    obtain ⟨types, htypes, -, hty⟩ := h
    rw [hty]
    split
    · exact hnull
    · split
      · exact hnull
      · cases hlast : types.getLast? with
        | none => exact hnull
        | some t => exact hf.haveTypes htypes t (List.mem_of_getLast? hlast)
  | declaration name isConst ascription initializer =>
    obtain ⟨id, declared, hty, -⟩ := h
    exact hty ▸ hnull
  | assignment target value =>
    obtain ⟨name, id, assigned, given, -, -, -, -, -, -, hty, -⟩ := h
    exact hty ▸ hnull
  | typeRef name args =>
    obtain ⟨types, named, htypes, hnamed, -, -, hty⟩ := h
    split at hty
    · rw [hty]
      exact hin.types _ (OrderedMap.mem_of_find hnamed)
    · exact Definitions.known_bind (hf.haveTypes htypes) hty

theorem symbolRule (hin : KnownInputs ctx wanted f.table) {origin : Origin}
    (h : f.SymbolRule ctx root wanted ty origin) : ty.Known := by
  cases origin with
  | source d c =>
    obtain ⟨name, ascription, initializer, -, hd⟩ := h
    exact hf.declares hd
  | parameter l k =>
    obtain ⟨params, body, -, hty⟩ := h
    split at hty
    · exact hf.nodes hty
    · obtain ⟨ps, r, name, ht, hp⟩ := hty
      exact ((Ty.known_func _ _).mp (hf.expects hin ht)).1 _ (List.mem_of_getElem? hp)
  | narrowed o g =>
    obtain ⟨operand, target, declared, asserted, -, ht, ho, rfl⟩ := h
    exact Definitions.known_narrow (hf.nodes ht) (hf.symbol hin ho)
  | host ty c => exact h.elim

/-! ## Along a trace -/

theorem step (hin : KnownInputs ctx wanted f.table) (h : Step ctx root wanted f f')
    (hnot : ∀ {n ty}, f'.type? n = some ty → ¬ f'.Uninferred ctx n) : f'.Known := by
  refine ⟨fun {n ty} hty => ?_, fun {id ty} hty => ?_⟩
  · obtain ⟨r, hr, rfl⟩ := type?_eq_some.mp hty
    rcases h.recorded_cases hr with ⟨hold, -⟩ | ⟨-, kind, hk, hrule⟩
    · exact hf.nodes (type?_eq_some.mpr ⟨r, hold, rfl⟩)
    · exact hf.rule hin hk hrule fun hn => hnot hty (hn.mono h.extends_)
  · rcases h.symbol_cases hty with hold | ⟨name, origin, -, hrule⟩
    · exact hf.symbols hold
    · exact hf.symbolRule hin hrule

theorem trace (hin : KnownInputs ctx wanted f.table) (h : Trace ctx root wanted f f')
    (hnot : ∀ {n ty}, f'.type? n = some ty → ¬ f'.Uninferred ctx n) : f'.Known := by
  induction h with
  | refl => exact hf
  | @tail g g' hg hstep ih =>
    have hext := hstep.extends_
    have htable : g.table = f.table := (Trace.extends_ hg).table
    exact (ih fun hty hn => hnot (hext.type hty) (hn.mono hext)).step (htable ▸ hin) hstep hnot

end Known

theorem Uninferred.not_known (h : f.Uninferred ctx n) {r : Resolution} {kind : NodeKind}
    (hk : ctx.tree.kind? n = some kind) (hrule : f.TypingRule ctx n r kind) : ¬ r.ty.Known := by
  obtain ⟨callee, arguments, trailing, params, result, types, hk', hcallee, -, name, hname,
    hnone⟩ := h
  rw [hk] at hk'
  cases hk'
  obtain ⟨calleeTy, types, hcallee', -, ⟨rfl, -⟩ |
    ⟨params', result', params'', rfl, -, hinst, -⟩⟩ := hrule
  · rw [hcallee] at hcallee'
    cases hcallee'
  · rw [hcallee] at hcallee'
    cases hcallee'
    rw [known_callResult (free_callInference ..) hinst]
    rintro ⟨-, hbound⟩
    obtain ⟨t, ht, -⟩ := hbound name hname
    rw [hnone] at ht
    cases ht

end Findings

/-! ## A whole check -/

theorem Concluded.known {s : Session} (h : Concluded ctx root wanted table ty s)
    (hin : KnownInputs ctx wanted table) (hclean : s.diagnostics = [])
    (hnot : ∀ n, ctx.tree.Reaches root n → ¬ s.findings.Uninferred ctx n) : s.findings.Known := by
  obtain ⟨s₀, hL, hlater⟩ := h.layout
  have hin₀ : KnownInputs ctx wanted s₀.findings.table := by
    refine ⟨hin.definitions, hin.types, hin.wanted, fun {id name ty c} hsym => ?_⟩
    have hsym' : s.table.symbol? id = some ⟨name, .host ty c⟩ := hlater.table ▸ hsym
    exact hin.hosts (h.hosts hsym')
  have hstart : s₀.findings.Known := by
    refine ⟨fun {n ty} hty => ?_, fun {id ty} hty => ?_⟩
    · obtain ⟨r, hr, -⟩ := Findings.type?_eq_some.mp hty
      have hrec := hlater.resolution hr
      have hn := h.reaches (Findings.type?_eq_some.mpr ⟨r, hrec, rfl⟩)
      rw [show s₀.findings.nodes.resolution? n = none from hL.unresolved hn] at hr
      cases hr
    · rw [show s₀.findings.symbolTypes.get? id = none from hL.untyped id] at hty
      cases hty
  exact hstart.trace hin₀ (hlater.trace hclean) fun hty => hnot _ (h.reaches hty)

/-- From known types, a check that reports nothing records a type with an unknown part exactly if
some call leaves a type parameter of its result uninferred. -/
theorem silent_unknown_iff_uninferred {σ : Nat} {result : CheckResult}
    (hp : ctx.tree.Proper root) (htypes : ctx.tree.TypesInPlace root) (hhost : table.HostScope σ)
    (hin : KnownInputs ctx wanted table)
    (hcheck : check ctx table root σ wanted = (result, table')) (hclean : result.diagnostics = []) :
    ((∃ n ty, ctx.tree.Reaches root n ∧ result.nodes.type? n = some ty ∧
        ty.containsUnknown = true) ∨
      ∃ id ty, result.symbolTypes.get? id = some ty ∧ ty.containsUnknown = true) ↔
    ∃ n, ctx.tree.Reaches root n ∧
      Findings.Uninferred ctx ⟨result.nodes, table', result.symbolTypes⟩ n := by
  obtain ⟨ty, s, heq, hconcluded⟩ := check_spec wanted hp htypes hhost
  rw [heq] at hcheck
  cases hcheck
  constructor
  · intro hunknown
    by_contra hnone
    have hknown := hconcluded.known hin hclean fun n hn hcall => hnone ⟨n, hn, hcall⟩
    rcases hunknown with ⟨n, ty, -, hty, hcontains⟩ | ⟨id, ty, hty, hcontains⟩
    · exact absurd (hknown.nodes hty) (by simp [Ty.Known, hcontains])
    · exact absurd (hknown.symbols hty) (by simp [Ty.Known, hcontains])
  · rintro ⟨n, hn, hcall⟩
    obtain ⟨r, kind, hr, hk, hrule⟩ := hconcluded.rule hclean hn
    have hty : s.findings.type? n = some r.ty := Findings.type?_eq_some.mpr ⟨r, hr, rfl⟩
    refine Or.inl ⟨n, r.ty, hn, hty, ?_⟩
    simpa [Ty.Known] using hcall.not_known hk hrule

/-- `["a"].map("b")`, with nothing given by the host. -/
def unfitContext : Context where
  env := .initial
  options := {}
  tree := ⟨#[⟨.literal (.value (.text "a")), Span.empty⟩, ⟨.collection [0], Span.empty⟩,
    ⟨.memberAccess 1 "map", Span.empty⟩, ⟨.literal (.value (.text "b")), Span.empty⟩,
    ⟨.invocation 2 [3] none, Span.empty⟩]⟩

def emptyTable : SymbolTable := (SymbolTable.hostScope {} []).2

theorem unfitContext_proper : unfitContext.tree.Proper 4 := by
  apply Tree.Proper.of_slots <;> decide

theorem unfitContext_typesInPlace : unfitContext.tree.TypesInPlace 4 := by
  apply Tree.TypesInPlace.of_nodes
  decide

theorem emptyTable_hostScope : emptyTable.HostScope 0 := SymbolTable.hostScope_spec []

theorem unfitContext_known : KnownInputs unfitContext none emptyTable := by
  refine ⟨by decide, by decide, by simp, ?_⟩
  intro id name ty c hsym
  simp [emptyTable, SymbolTable.hostScope, SymbolTable.addSymbols, SymbolTable.addScope,
    SymbolTable.symbol?] at hsym

/-- The text in place of a function is not reported, and the call gets an unknown element type. -/
theorem unfit_argument_accepted : ∃ result table',
    check unfitContext emptyTable 4 0 none = (result, table') ∧ result.diagnostics = [] ∧
      result.nodes.type? 4 = some (Ty.listOf .unknown) := by
  have hclean : (check unfitContext emptyTable 4 0 none).1.diagnostics = [] := by decide +kernel
  have hty : (check unfitContext emptyTable 4 0 none).1.nodes.type? 4 =
      some (Ty.listOf .unknown) := by decide +kernel
  exact ⟨_, _, rfl, hclean, hty⟩

theorem unfit_argument_leaves_uninferred : ∃ result table',
    check unfitContext emptyTable 4 0 none = (result, table') ∧ result.diagnostics = [] ∧
      ∃ n, unfitContext.tree.Reaches 4 n ∧
        Findings.Uninferred unfitContext ⟨result.nodes, table', result.symbolTypes⟩ n := by
  obtain ⟨result, table', hcheck, hclean, hty⟩ := unfit_argument_accepted
  refine ⟨result, table', hcheck, hclean, ?_⟩
  exact (silent_unknown_iff_uninferred unfitContext_proper unfitContext_typesInPlace
    emptyTable_hostScope unfitContext_known hcheck hclean).mp
    (Or.inl ⟨4, _, .refl _ 4, hty, rfl⟩)

/-- An unknown type does not always come with a diagnostic. -/
theorem unknown_can_be_silent : ¬ ∀ (ctx : Context) (table table' : SymbolTable) (root : NodeIndex)
    (σ : ScopeId) (wanted : Option Ty) (result : CheckResult), ctx.tree.Proper root →
    ctx.tree.TypesInPlace root → table.HostScope σ → KnownInputs ctx wanted table →
    check ctx table root σ wanted = (result, table') →
    ((∃ n ty, ctx.tree.Reaches root n ∧ result.nodes.type? n = some ty ∧
        ty.containsUnknown = true) ∨
      ∃ id ty, result.symbolTypes.get? id = some ty ∧ ty.containsUnknown = true) →
    result.diagnostics ≠ [] := by
  intro hall
  obtain ⟨result, table', hcheck, hclean, hty⟩ := unfit_argument_accepted
  exact hall _ _ _ _ _ _ _ unfitContext_proper unfitContext_typesInPlace emptyTable_hostScope
    unfitContext_known hcheck (Or.inl ⟨4, _, .refl _ 4, hty, rfl⟩) hclean

end ScriptTyping
