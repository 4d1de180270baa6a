import Mathlib.Data.List.Basic
import ScriptTyping.CheckResult

/-!
# The rule of typing

What the type and the binding of a node have to be, given those of its children. The rule speaks
of what is finally recorded, and not of the order in which it was found out.
-/

namespace ScriptTyping

open Check

/-- What the second phase has found out so far. -/
structure Findings where
  nodes : NodeStates
  table : SymbolTable
  symbolTypes : OrderedMap SymbolId Ty

def Session.findings (s : Session) : Findings := ⟨s.nodes, s.table, s.symbolTypes⟩

/-- Nothing is said of types with an unknown part. -/
def Fits (ctx : Context) (source target : Ty) : Prop :=
  source.containsUnknown = true ∨ target.containsUnknown = true ∨
    ctx.env.definitions.isAssignable source target = true

/-- What the arguments of a call say of the callee's type parameters, lambdas last. -/
def callInference (ctx : Context) (callee : Ty) (params : List (String × Ty))
    (arguments : List NodeIndex) (types : NodeIndex → Ty) : Inference :=
  (resolutionOrder ctx (argumentsOf arguments params)).foldl
    (fun i a => i.infer ctx.env.definitions a.parameter (types a.node)) ⟨callee.freeParams, .empty⟩

namespace Findings

variable {ctx : Context} {f f' f'' : Findings} {n : NodeIndex} {id : SymbolId} {ty : Ty}

def type? (f : Findings) (n : NodeIndex) : Option Ty := f.nodes.type? n

def HaveTypes (f : Findings) (ns : List NodeIndex) (types : List Ty) : Prop :=
  ns.map f.type? = types.map some

/-- The type of a symbol where it is read. -/
inductive SymbolHasType (ctx : Context) (f : Findings) : SymbolId → Ty → Prop
  | host {id : SymbolId} {name : String} {ty : Ty} {c : Bool}
      (hsym : f.table.symbol? id = some ⟨name, .host ty c⟩) : SymbolHasType ctx f id ty
  | source {id : SymbolId} {name : String} {d : NodeIndex} {c : Bool} {ty : Ty}
      (hsym : f.table.symbol? id = some ⟨name, .source d c⟩)
      (hty : f.symbolTypes.get? id = some ty) : SymbolHasType ctx f id ty
  | parameter {id : SymbolId} {name : String} {l : NodeIndex} {k : Nat} {ty : Ty}
      (hsym : f.table.symbol? id = some ⟨name, .parameter l k⟩)
      (hty : f.symbolTypes.get? id = some ty) : SymbolHasType ctx f id ty
  | narrowed {id o : SymbolId} {name : String} {g operand target : NodeIndex}
      {declared asserted : Ty} (hsym : f.table.symbol? id = some ⟨name, .narrowed o g⟩)
      (hkind : ctx.tree.kind? g = some (.typeTest operand target))
      (hasserted : f.type? target = some asserted) (hdeclared : SymbolHasType ctx f o declared)
      (hty : f.symbolTypes.get? id = some (ctx.env.definitions.narrow asserted declared)) :
      SymbolHasType ctx f id (ctx.env.definitions.narrow asserted declared)

/-- A parameter has the type of its symbol, and that of its ascription if there is one. The
implicit parameter is there only if one was expected. -/
def ParametersTyped (ctx : Context) (f : Findings) (params : List LambdaParam)
    (symbols : List SymbolId) (resolved : List (String × Ty)) (bound : List SymbolId) : Prop :=
  if params.isEmpty then
    (resolved = [] ∧ bound = []) ∨
      ∃ id ty, bound = [id] ∧ symbols = [id] ∧ f.symbolTypes.get? id = some ty ∧
        resolved = [(ctx.options.implicitLambdaParameter, ty)]
  else
    bound = symbols ∧ resolved.map (·.1) = params.map (·.name) ∧
      symbols.map f.symbolTypes.get? = resolved.map (some ·.2) ∧
      ∀ p ∈ params.zip resolved, ∀ a ∈ p.1.ascription, f.type? a = some p.2.2

/-- The type that a declaration gives its symbol. -/
def Declares (ctx : Context) (f : Findings) (isConst : Bool) (ascription : Option NodeIndex)
    (initializer : NodeIndex) (ty : Ty) : Prop :=
  ∃ value, f.type? initializer = some value ∧
    match ascription with
    | none => ty = declaredType isConst none value
    | some a => f.type? a = some ty ∧ Fits ctx value ty

def TypingRule (ctx : Context) (f : Findings) (n : NodeIndex) (r : Resolution) : NodeKind → Prop
  | .identifier name => ∃ id, f.table.resolve r.scopes.scope name = some id ∧
      r.binding = .symbol id ∧ f.SymbolHasType ctx id r.ty
  | .literal value => r.ty = Ty.ofConstant value ∧ r.binding = .none
  | .collection elements => ∃ types, f.HaveTypes elements types ∧ r.binding = .none ∧
      r.ty = Ty.listOf (if types.any Ty.isUnknown then Ty.unknown else Ty.unionOf types)
  | .conditional condition thenBranch elseBranch =>
    ∃ test yes, f.type? condition = some test ∧ Fits ctx test Ty.boolean ∧
      f.type? thenBranch = some yes ∧ r.binding = .none ∧
      match elseBranch with
      | none => r.ty = if yes.isUnknown then .unknown else Ty.unionOf [yes, Ty.null]
      | some e => ∃ no, f.type? e = some no ∧ r.ty = ctx.env.definitions.commonSupertype yes no
  | .invocation callee arguments trailing =>
    ∃ calleeTy types, f.type? callee = some calleeTy ∧
      f.HaveTypes (arguments ++ trailing.toList) types ∧
      ((calleeTy = .unknown ∧ r.ty = .unknown ∧ r.binding = .none) ∨
        ∃ params result params', calleeTy = .func params result ∧
          params.length = (arguments ++ trailing.toList).length ∧
          calleeTy.instantiate (callInference ctx calleeTy params (arguments ++ trailing.toList)
            fun i => (f.type? i).getD .unknown).finish = .func params' r.ty ∧
          r.binding = .call (.func params' r.ty) ∧ ∀ p ∈ types.zip params', Fits ctx p.1 p.2.2)
  | .memberAccess object member =>
    ∃ objectTy, f.type? object = some objectTy ∧
      ((objectTy = .unknown ∧ r.ty = .unknown ∧ r.binding = .none) ∨
        ∃ found, objectTy ≠ .unknown ∧ r.binding = .member found ∧ r.ty = found.ty ∧
          ctx.env.definitions.findMembers objectTy.widen member = [found])
  | .lambda params body =>
    ∃ τ data resolved bound result, r.scopes.inner = some τ ∧ f.table.scope? τ = some data ∧
      f.type? body = some result ∧ r.ty = .func resolved result ∧ r.binding = .lambda bound ∧
      f.ParametersTyped ctx params data.symbols resolved bound
  | .typeTest operand target =>
    ∃ tested asserted, f.nodes.resolution? operand = some tested ∧
      f.type? target = some asserted ∧ r.ty = Ty.boolean ∧ r.binding = .typeTest asserted ∧
      ∀ id, tested.binding = .symbol id → ctx.options.reportNonNarrowableGuards = true →
        f.table.isConst id = true
  | .conjunction left right =>
    ∃ first second, f.type? left = some first ∧ Fits ctx first Ty.boolean ∧
      f.type? right = some second ∧ Fits ctx second Ty.boolean ∧ r.ty = Ty.boolean ∧
      r.binding = .none
  | .block statements =>
    ∃ types, f.HaveTypes statements types ∧ r.binding = .none ∧
      r.ty = match statements.getLast? with
        | none => Ty.null
        | some last => if ctx.tree.isStatement last then Ty.null else types.getLast?.getD Ty.null
  | .declaration name isConst ascription initializer =>
    ∃ id declared, r.ty = Ty.null ∧ r.binding = .declaration id ∧
      f.table.symbol? id = some ⟨name, .source n isConst⟩ ∧
      f.symbolTypes.get? id = some declared ∧
      f.Declares ctx isConst ascription initializer declared
  | .assignment target value =>
    ∃ name id assigned given, ctx.tree.identifier? target = some name ∧
      f.nodes.resolution? target = some assigned ∧ assigned.binding = .symbol id ∧
      f.table.isConst id = false ∧ f.type? value = some given ∧ Fits ctx given assigned.ty ∧
      r.ty = Ty.null ∧ r.binding = .assignment id
  | .typeRef name args =>
    ∃ types named, f.HaveTypes args types ∧ ctx.env.types.get? name = some named ∧
      missingArity ctx.env.definitions named = types.length ∧ r.binding = .none ∧
      if types = [] then r.ty = named else ctx.env.definitions.bind named types = .ok r.ty

/-! ## More findings -/

/-- Nothing that `f` has found is taken back. -/
structure Extends (f f' : Findings) : Prop where
  table : f'.table = f.table
  resolution : ∀ {n r}, f.nodes.resolution? n = some r → f'.nodes.resolution? n = some r
  symbolType : ∀ {id ty}, f.symbolTypes.get? id = some ty → f'.symbolTypes.get? id = some ty

theorem Extends.refl (f : Findings) : f.Extends f := ⟨rfl, fun h => h, fun h => h⟩

theorem Extends.trans (h : f.Extends f') (h' : f'.Extends f'') : f.Extends f'' :=
  ⟨h'.table.trans h.table, fun hr => h'.resolution (h.resolution hr),
    fun ht => h'.symbolType (h.symbolType ht)⟩

theorem type?_eq_some : f.type? n = some ty ↔ ∃ r, f.nodes.resolution? n = some r ∧ r.ty = ty := by
  simp [type?, NodeStates.type?]

theorem Extends.type (h : f.Extends f') (hn : f.type? n = some ty) : f'.type? n = some ty := by
  obtain ⟨r, hr, hty⟩ := type?_eq_some.mp hn
  exact type?_eq_some.mpr ⟨r, h.resolution hr, hty⟩

theorem Extends.haveTypes {ns : List NodeIndex} {types : List Ty} (h : f.Extends f')
    (hn : f.HaveTypes ns types) : f'.HaveTypes ns types := by
  unfold HaveTypes at hn ⊢
  rw [← hn]
  apply List.map_congr_left
  intro n hmem
  have hsome : f.type? n ∈ types.map some := hn ▸ List.mem_map_of_mem hmem
  obtain ⟨ty, -, hty⟩ := List.mem_map.mp hsome
  rw [← hty, h.type hty.symm]

theorem HaveTypes.cons {ns : List NodeIndex} {types : List Ty} (hn : f.type? n = some ty)
    (h : f.HaveTypes ns types) : f.HaveTypes (n :: ns) (ty :: types) := by
  unfold HaveTypes at h ⊢
  rw [List.map_cons, List.map_cons, hn, h]

theorem HaveTypes.recorded {ns : List NodeIndex} {types : List Ty} (h : f.HaveTypes ns types)
    (hn : n ∈ ns) : ∃ ty, f.type? n = some ty := by
  have hsome : f.type? n ∈ types.map some := h ▸ List.mem_map_of_mem hn
  obtain ⟨ty, -, hty⟩ := List.mem_map.mp hsome
  exact ⟨ty, hty.symm⟩

theorem HaveTypes.of_mem {ns : List NodeIndex} {types : List Ty} (h : f.HaveTypes ns types)
    (hty : ty ∈ types) : ∃ n ∈ ns, f.type? n = some ty := by
  have hmem : some ty ∈ ns.map f.type? := h ▸ List.mem_map_of_mem hty
  obtain ⟨n, hn, heq⟩ := List.mem_map.mp hmem
  exact ⟨n, hn, heq⟩

theorem SymbolHasType.mono (h : f.SymbolHasType ctx id ty) (hf : f.Extends f') :
    f'.SymbolHasType ctx id ty := by
  induction h with
  | host hsym => exact .host (hf.table ▸ hsym)
  | source hsym hty => exact .source (hf.table ▸ hsym) (hf.symbolType hty)
  | parameter hsym hty => exact .parameter (hf.table ▸ hsym) (hf.symbolType hty)
  | narrowed hsym hkind hasserted _ hty ih =>
    exact .narrowed (hf.table ▸ hsym) hkind (hf.type hasserted) ih (hf.symbolType hty)

theorem SymbolHasType.unique {ty' : Ty} (h : f.SymbolHasType ctx id ty)
    (h' : f.SymbolHasType ctx id ty') : ty = ty' := by
  cases h with
  | host hsym => cases h' <;> simp_all
  | source hsym hty => cases h' <;> simp_all
  | parameter hsym hty => cases h' <;> simp_all
  | narrowed hsym _ _ _ hty => cases h' <;> simp_all

theorem Extends.getD_type (h : f.Extends f') (hn : ∃ ty, f.type? n = some ty) :
    (f'.type? n).getD .unknown = (f.type? n).getD .unknown := by
  obtain ⟨ty, hty⟩ := hn
  rw [hty, h.type hty]

theorem ParametersTyped.mono {params : List LambdaParam} {symbols bound : List SymbolId}
    {resolved : List (String × Ty)} (h : f.ParametersTyped ctx params symbols resolved bound)
    (hf : f.Extends f') : f'.ParametersTyped ctx params symbols resolved bound := by
  unfold ParametersTyped at h ⊢
  split at h
  · rw [if_pos (by assumption)]
    rcases h with hnone | ⟨id, ty, hbound, hsymbols, hty, hresolved⟩
    · exact Or.inl hnone
    · exact Or.inr ⟨id, ty, hbound, hsymbols, hf.symbolType hty, hresolved⟩
  · rw [if_neg (by assumption)]
    obtain ⟨hbound, hnames, htypes, hascribed⟩ := h
    refine ⟨hbound, hnames, ?_, fun p hp a ha => hf.type (hascribed p hp a ha)⟩
    rw [← htypes]
    apply List.map_congr_left
    intro id hid
    have hsome : f.symbolTypes.get? id ∈ resolved.map (some ·.2) := htypes ▸ List.mem_map_of_mem hid
    obtain ⟨p, -, hp⟩ := List.mem_map.mp hsome
    rw [← hp, hf.symbolType hp.symm]

theorem Declares.mono {isConst : Bool} {ascription : Option NodeIndex} {initializer : NodeIndex}
    (h : f.Declares ctx isConst ascription initializer ty) (hf : f.Extends f') :
    f'.Declares ctx isConst ascription initializer ty := by
  obtain ⟨value, hvalue, hty⟩ := h
  refine ⟨value, hf.type hvalue, ?_⟩
  cases ascription with
  | none => exact hty
  | some a => exact ⟨hf.type hty.1, hty.2⟩

end Findings

theorem resolutionOrder_perm (ctx : Context) (as : List Argument) :
    (resolutionOrder ctx as).Perm as :=
  List.perm_append_comm.trans
    (List.filter_append_perm (fun a : Argument => ctx.tree.isLambda a.node) as)

theorem map_node_argumentsOf (nodes : List NodeIndex) (params : List (String × Ty)) :
    (argumentsOf nodes params).map (·.node) = (nodes.zip params).map (·.1) := by
  unfold argumentsOf
  rw [List.map_map]
  conv_rhs => rw [← List.zipIdx_map_fst 0 (nodes.zip params), List.map_map]
  rfl

theorem map_fst_zip_sublist {α β : Type} (xs : List α) (ys : List β) :
    ((xs.zip ys).map (·.1)).Sublist xs := by
  induction xs generalizing ys with
  | nil => simp
  | cons x xs ih =>
    cases ys with
    | nil => simp
    | cons y ys => simpa using ih ys

theorem mem_resolutionOrder {ctx : Context} {arguments : List NodeIndex}
    {params : List (String × Ty)} {a : Argument}
    (h : a ∈ resolutionOrder ctx (argumentsOf arguments params)) :
    a.node ∈ arguments ∧ ∃ name, (name, a.parameter) ∈ params := by
  obtain ⟨p, hp, rfl⟩ := List.mem_map.mp ((resolutionOrder_perm ctx _).mem_iff.mp h)
  have hzip := List.of_mem_zip (List.fst_mem_of_mem_zipIdx hp)
  exact ⟨hzip.1, p.1.2.1, hzip.2⟩

theorem callInference_congr {ctx : Context} {callee : Ty} {params : List (String × Ty)}
    {arguments : List NodeIndex} {types types' : NodeIndex → Ty}
    (h : ∀ a ∈ arguments, types a = types' a) :
    callInference ctx callee params arguments types =
      callInference ctx callee params arguments types' := by
  unfold callInference
  apply List.foldl_ext
  intro i a ha
  rw [h a.node (mem_resolutionOrder ha).1]

namespace Findings

variable {ctx : Context} {f f' : Findings} {n : NodeIndex} {r : Resolution}

theorem TypingRule.mono {kind : NodeKind} (h : f.TypingRule ctx n r kind) (hf : f.Extends f') :
    f'.TypingRule ctx n r kind := by
  cases kind with
  | identifier name =>
    obtain ⟨id, hid, hbinding, hty⟩ := h
    exact ⟨id, hf.table ▸ hid, hbinding, hty.mono hf⟩
  | literal value => exact h
  | collection elements =>
    obtain ⟨types, htypes, hrest⟩ := h
    exact ⟨types, hf.haveTypes htypes, hrest⟩
  | conditional condition thenBranch elseBranch =>
    obtain ⟨test, yes, htest, hfits, hyes, hbinding, hty⟩ := h
    refine ⟨test, yes, hf.type htest, hfits, hf.type hyes, hbinding, ?_⟩
    cases elseBranch with
    | none => exact hty
    | some e =>
      obtain ⟨no, hno, hty⟩ := hty
      exact ⟨no, hf.type hno, hty⟩
  | invocation callee arguments trailing =>
    obtain ⟨calleeTy, types, hcallee, htypes, hcases⟩ := h
    refine ⟨calleeTy, types, hf.type hcallee, hf.haveTypes htypes, hcases.imp_right ?_⟩
    rintro ⟨params, result, params', hfunc, hlen, hinst, hrest⟩
    refine ⟨params, result, params', hfunc, hlen, ?_, hrest⟩
    rw [← hinst, callInference_congr fun a ha => hf.getD_type (htypes.recorded ha)]
  | memberAccess object member =>
    obtain ⟨objectTy, hobject, hrest⟩ := h
    exact ⟨objectTy, hf.type hobject, hrest⟩
  | lambda params body =>
    obtain ⟨τ, data, resolved, bound, result, hinner, hscope, hbody, hty, hbinding, hparams⟩ := h
    exact ⟨τ, data, resolved, bound, result, hinner, hf.table ▸ hscope, hf.type hbody, hty, hbinding,
      hparams.mono hf⟩
  | typeTest operand target =>
    obtain ⟨tested, asserted, hoperand, htarget, hty, hbinding, hconst⟩ := h
    exact ⟨tested, asserted, hf.resolution hoperand, hf.type htarget, hty, hbinding,
      fun id hid hopt => hf.table ▸ hconst id hid hopt⟩
  | conjunction left right =>
    obtain ⟨first, second, hl, hfl, hr, hfr, hrest⟩ := h
    exact ⟨first, second, hf.type hl, hfl, hf.type hr, hfr, hrest⟩
  | block statements =>
    obtain ⟨types, htypes, hrest⟩ := h
    exact ⟨types, hf.haveTypes htypes, hrest⟩
  | declaration name isConst ascription initializer =>
    obtain ⟨id, declared, hty, hbinding, hsym, hset, hdeclares⟩ := h
    exact ⟨id, declared, hty, hbinding, hf.table ▸ hsym, hf.symbolType hset, hdeclares.mono hf⟩
  | assignment target value =>
    obtain ⟨name, id, assigned, given, hname, htarget, hbound, hconst, hvalue, hfits, hrest⟩ := h
    exact ⟨name, id, assigned, given, hname, hf.resolution htarget, hbound, hf.table ▸ hconst,
      hf.type hvalue, hfits, hrest⟩
  | typeRef name args =>
    obtain ⟨types, named, htypes, hrest⟩ := h
    exact ⟨types, named, hf.haveTypes htypes, hrest⟩

theorem TypingRule.child {kind : NodeKind} {c : NodeIndex} (h : f.TypingRule ctx n r kind)
    (hc : c ∈ kind.children) : ∃ ty, f.type? c = some ty := by
  cases kind with
  | identifier name => simp [NodeKind.children] at hc
  | literal value => simp [NodeKind.children] at hc
  | collection elements => exact h.choose_spec.1.recorded hc
  | conditional condition thenBranch elseBranch =>
    obtain ⟨test, yes, htest, -, hyes, -, hty⟩ := h
    simp only [NodeKind.children, List.mem_cons, Option.mem_toList] at hc
    rcases hc with rfl | rfl | hc
    · exact ⟨test, htest⟩
    · exact ⟨yes, hyes⟩
    · cases hc
      exact ⟨_, hty.choose_spec.1⟩
  | invocation callee arguments trailing =>
    obtain ⟨calleeTy, types, hcallee, htypes, -⟩ := h
    rcases List.mem_cons.mp hc with rfl | hc
    · exact ⟨calleeTy, hcallee⟩
    · exact htypes.recorded hc
  | memberAccess object member =>
    obtain ⟨objectTy, hobject, -⟩ := h
    exact ⟨objectTy, List.mem_singleton.mp hc ▸ hobject⟩
  | lambda params body =>
    obtain ⟨τ, data, resolved, bound, result, -, -, hbody, -, -, hparams⟩ := h
    simp only [NodeKind.children, List.mem_append, List.mem_singleton, List.mem_filterMap] at hc
    rcases hc with ⟨p, hp, ha⟩ | rfl
    · unfold ParametersTyped at hparams
      split at hparams
      · rename_i hempty
        simp [List.isEmpty_iff.mp hempty] at hp
      · obtain ⟨-, hnames, -, hascribed⟩ := hparams
        have hlen : params.length ≤ resolved.length :=
          Nat.le_of_eq (by simpa using (congrArg List.length hnames).symm)
        rw [← List.map_fst_zip hlen] at hp
        obtain ⟨q, hq, rfl⟩ := List.mem_map.mp hp
        exact ⟨_, hascribed q hq c ha⟩
    · exact ⟨result, hbody⟩
  | typeTest operand target =>
    obtain ⟨tested, asserted, hoperand, htarget, -⟩ := h
    simp only [NodeKind.children, List.mem_cons, List.not_mem_nil, or_false] at hc
    rcases hc with rfl | rfl
    · exact ⟨_, type?_eq_some.mpr ⟨tested, hoperand, rfl⟩⟩
    · exact ⟨asserted, htarget⟩
  | conjunction left right =>
    obtain ⟨first, second, hl, -, hr, -⟩ := h
    simp only [NodeKind.children, List.mem_cons, List.not_mem_nil, or_false] at hc
    rcases hc with rfl | rfl
    · exact ⟨first, hl⟩
    · exact ⟨second, hr⟩
  | block statements => exact h.choose_spec.1.recorded hc
  | declaration name isConst ascription initializer =>
    obtain ⟨id, declared, -, -, -, -, value, hvalue, hty⟩ := h
    simp only [NodeKind.children, List.mem_append, Option.mem_toList, List.mem_singleton] at hc
    rcases hc with hc | rfl
    · cases hc
      exact ⟨declared, hty.1⟩
    · exact ⟨value, hvalue⟩
  | assignment target value =>
    obtain ⟨name, id, assigned, given, -, htarget, -, -, hvalue, -⟩ := h
    simp only [NodeKind.children, List.mem_cons, List.not_mem_nil, or_false] at hc
    rcases hc with rfl | rfl
    · exact ⟨_, type?_eq_some.mpr ⟨assigned, htarget, rfl⟩⟩
    · exact ⟨given, hvalue⟩
  | typeRef name args => exact h.choose_spec.choose_spec.1.recorded hc

end Findings

end ScriptTyping
