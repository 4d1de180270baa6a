import ScriptTyping.Proofs.LexicalScoping
import ScriptTyping.Proofs.TypingRule
import ScriptTyping.Proofs.Upkeep
import ScriptTyping.Proofs.WellFormedTypes

/-!
# A check keeps types well formed

Whatever a check records is well formed if the environment, the values of the host and the expected
type are. Each function of the two phases keeps a session well typed and gives well-formed types, so
a run does. The tree may be any.
-/

namespace ScriptTyping

open Check

variable {α β : Type} {ctx : Context} {ds : Definitions} {s : Session} {I : Session → Prop}

/-! ## Sessions of well-formed types -/

/-- The types that a binding holds are well formed. -/
def Binding.WellFormed (ds : Definitions) : Binding → Prop
  | .member m => m.ty.WellFormed ds
  | .call signature => signature.WellFormed ds
  | .typeTest asserted => asserted.WellFormed ds
  | _ => True

structure Session.WellTyped (ds : Definitions) (s : Session) : Prop where
  nodes : ∀ n r, s.nodes.resolution? n = some r → r.ty.WellFormed ds ∧ r.binding.WellFormed ds
  symbols : ∀ id ty, s.symbolTypes.get? id = some ty → ty.WellFormed ds
  hosts : ∀ id name ty c, s.table.symbol? id = some ⟨name, .host ty c⟩ → ty.WellFormed ds

namespace Session.WellTyped

theorem of_same {s' : Session} (h : s.WellTyped ds) (hnodes : s'.nodes = s.nodes)
    (hsymbols : s'.symbolTypes = s.symbolTypes) (htable : s'.table = s.table) : s'.WellTyped ds :=
  ⟨hnodes ▸ h.nodes, hsymbols ▸ h.symbols, htable ▸ h.hosts⟩

theorem type {n : NodeIndex} {ty : Ty} (h : s.WellTyped ds) (hty : s.nodes.type? n = some ty) :
    ty.WellFormed ds := by
  obtain ⟨r, hr, rfl⟩ := Option.map_eq_some_iff.mp hty
  exact (h.nodes n r hr).1

theorem addSymbol (h : s.WellTyped ds) {name : String} {origin : Origin}
    (hne : ∀ ty c, origin ≠ .host ty c) :
    WellTyped ds { s with table := (s.table.addSymbol ⟨name, origin⟩).2 } := by
  refine ⟨h.nodes, h.symbols, fun id name' ty c hsym => ?_⟩
  simp only [SymbolTable.addSymbol, SymbolTable.symbol?, Array.getElem?_push] at hsym
  split at hsym
  · cases hsym
    exact absurd rfl (hne ty c)
  · exact h.hosts id name' ty c hsym

theorem setSymbolType (h : s.WellTyped ds) (id : SymbolId) {ty : Ty} (hty : ty.WellFormed ds) :
    WellTyped ds { s with symbolTypes := s.symbolTypes.insert id ty } := by
  refine ⟨h.nodes, fun id' ty' hty' => ?_, h.hosts⟩
  rw [OrderedMap.get?_insert] at hty'
  split at hty'
  · cases hty'
    exact hty
  · exact h.symbols id' ty' hty'

theorem set {i : NodeIndex} {old new : NodeState} (h : s.WellTyped ds)
    (hold : s.nodes.get? i = some old)
    (hnew : ∀ r, new.resolution? = some r → r.ty.WellFormed ds ∧ r.binding.WellFormed ds) :
    WellTyped ds { s with nodes := s.nodes.set i new } := by
  refine ⟨fun n r hr => ?_, h.symbols, h.hosts⟩
  by_cases hin : i = n
  · subst hin
    rw [NodeStates.resolution?, NodeStates.get?_set_self hold] at hr
    exact hnew r hr
  · rw [NodeStates.resolution?, NodeStates.get?_set_of_ne _ hin] at hr
    exact h.nodes n r hr

end Session.WellTyped

open Session

theorem wellTyped_keptByWiring (ds : Definitions) : KeptByWiring (WellTyped ds) where
  symbol hne hs := hs.addSymbol hne
  truths hs := hs.of_same rfl rfl rfl
  declared hs := hs.of_same rfl rfl rfl
  scope hs := ⟨hs.nodes, hs.symbols, hs.hosts⟩
  conjunction hs := hs.of_same rfl rfl rfl
  wired hunresolved hs := hs.set hunresolved (by simp [NodeState.resolution?])

/-! ## Reading symbols -/

/-- What is found of a node is well formed. -/
def Found (ds : Definitions) (found : Ty × Binding) : Prop :=
  found.1.WellFormed ds ∧ found.2.WellFormed ds

theorem found_unknown : Found ds (.unknown, .none) := ⟨Ty.wellFormed_unknown, trivial⟩

theorem found_bare (id : DefId) (name : String) {binding : Binding}
    (hbinding : binding.WellFormed ds) : Found ds (.nominal id name none, binding) :=
  ⟨Ty.wellFormed_bare id name, hbinding⟩

/-- The resolver gives well-formed types if such are expected. -/
def KeepsTypes (ds : Definitions) (resolve : Resolver) : Prop :=
  ∀ i expected, (∀ t ∈ expected, t.WellFormed ds) →
    Keeps (WellTyped ds) (resolve i expected) (Ty.WellFormed ds)

theorem report_keeps (span : Span) (m : Message) (args : List String) :
    Keeps (WellTyped ds) (report span m args) fun _ => True :=
  .modify fun _ hs => hs.of_same rfl rfl rfl

theorem reportAt_keeps (n : NodeIndex) (m : Message) (args : List String) :
    Keeps (WellTyped ds) (reportAt ctx n m args) fun _ => True :=
  report_keeps _ m args

theorem setSymbolType_keeps (id : SymbolId) {ty : Ty} (hty : ty.WellFormed ds) :
    Keeps (WellTyped ds) (setSymbolType id ty) fun _ => True :=
  .modify fun _ hs => hs.setSymbolType id hty

theorem checkAssignable_keeps (n : NodeIndex) (source target : Ty) :
    Keeps (WellTyped ds) (checkAssignable ctx n source target) fun _ => True :=
  .ite (.pure trivial) (reportAt_keeps n _ _)

section Functions

variable {resolve : Resolver} {expected : Option Ty} (hexpected : ∀ t ∈ expected, t.WellFormed ds)
  (hresolve : KeepsTypes ds resolve)

include hresolve

theorem KeepsTypes.visit (i : NodeIndex) :
    Keeps (WellTyped ds) (resolve i none) (Ty.WellFormed ds) :=
  hresolve i none (by simp)

theorem KeepsTypes.visitAgainst (i : NodeIndex) {ty : Ty} (hty : ty.WellFormed ds) :
    Keeps (WellTyped ds) (resolve i (some ty)) (Ty.WellFormed ds) :=
  hresolve i (some ty) (by simpa using hty)

theorem guardType_keeps (g : NodeIndex) :
    Keeps (WellTyped ds) (guardType ctx resolve g) (Ty.WellFormed ds) := by
  unfold guardType
  split
  · exact hresolve.visit _
  · exact .pure Ty.wellFormed_unknown

theorem resolveCondition_keeps (condition : NodeIndex) :
    Keeps (WellTyped ds) (resolveCondition ctx resolve condition) fun _ => True :=
  (hresolve.visitAgainst condition (Ty.wellFormed_bare _ _)).bind fun _ _ =>
    .ite (.pure trivial) (reportAt_keeps condition _ _)

theorem resolveConjunction_keeps (left right : NodeIndex) :
    Keeps (WellTyped ds) (resolveConjunction ctx resolve left right) (Found ds) :=
  (resolveCondition_keeps hresolve left).bind fun _ _ =>
    (resolveCondition_keeps hresolve right).bind fun _ _ => .pure (found_bare _ _ trivial)

theorem resolveTypeTest_keeps (operand target : NodeIndex) :
    Keeps (WellTyped ds) (resolveTypeTest ctx resolve operand target) (Found ds) := by
  refine (hresolve.visit operand).bind fun _ _ => (hresolve.visit target).bind
    fun asserted hasserted => .get_bind fun s _ => ?_
  have hfound : Found ds (Ty.boolean, .typeTest asserted) := found_bare _ _ hasserted
  dsimp only
  split
  · exact .ite ((reportAt_keeps operand _ _).bind fun _ _ => .pure hfound) (.pure hfound)
  · exact .pure hfound

theorem resolveInitializer_keeps (isConst : Bool) (ascription : Option NodeIndex)
    (initializer : NodeIndex) :
    Keeps (WellTyped ds) (resolveInitializer ctx resolve isConst ascription initializer)
      (Ty.WellFormed ds) := by
  cases ascription with
  | none =>
    refine (hresolve.visit initializer).bind fun ty hty => .pure ?_
    cases isConst with
    | true => exact hty
    | false => exact hty.widen
  | some ascription =>
    exact (hresolve.visit ascription).bind fun ascribed hascribed =>
      (hresolve.visitAgainst initializer hascribed).bind fun ty _ =>
        (checkAssignable_keeps initializer ty ascribed).bind fun _ _ => .pure hascribed

theorem resolveDeclaration_keeps (i : NodeIndex) (isConst : Bool) (ascription : Option NodeIndex)
    (initializer : NodeIndex) :
    Keeps (WellTyped ds) (resolveDeclaration ctx resolve i isConst ascription initializer)
      (Found ds) := by
  refine (Keeps.modify fun _ hs => hs.of_same rfl rfl rfl).bind fun _ _ =>
    (resolveInitializer_keeps hresolve isConst ascription initializer).bind fun ty hty =>
      (Keeps.modify fun _ hs => hs.of_same rfl rfl rfl).bind fun _ _ => .get_bind fun s _ => ?_
  split
  · rename_i id _
    exact (setSymbolType_keeps id hty).bind fun _ _ => .pure (found_bare _ _ trivial)
  · exact .pure (found_bare _ _ trivial)

theorem resolveAssignment_keeps (target value : NodeIndex) :
    Keeps (WellTyped ds) (resolveAssignment ctx resolve target value) (Found ds) := by
  unfold resolveAssignment
  split
  · exact (hresolve.visit target).bind fun _ _ => (hresolve.visit value).bind fun _ _ =>
      (reportAt_keeps target _ _).bind fun _ _ => .pure found_unknown
  · refine (hresolve.visit target).bind fun targetTy htarget => .get_bind fun s _ => ?_
    split
    · exact (hresolve.visit value).bind fun _ _ => .pure found_unknown
    · refine .ite ?_ ?_
      · exact (reportAt_keeps target _ _).bind fun _ _ =>
          (hresolve.visitAgainst value htarget).bind fun _ _ => .pure found_unknown
      · exact (hresolve.visitAgainst value htarget).bind fun valueTy _ =>
          (checkAssignable_keeps value valueTy targetTy).bind fun _ _ =>
            .pure (found_bare _ _ trivial)

theorem parameterType_keeps (param : LambdaParam) {wanted : Option (String × Ty)}
    (hwanted : ∀ p ∈ wanted, p.2.WellFormed ds) :
    Keeps (WellTyped ds) (parameterType resolve param wanted) (Ty.WellFormed ds) := by
  unfold parameterType
  split
  · exact hresolve.visit _
  · exact .pure (hwanted _ rfl)
  · exact (report_keeps _ _ _).bind fun _ _ => .pure Ty.wellFormed_unknown

theorem resolveParams_keeps (params : List (LambdaParam × SymbolId)) {wanted : List (String × Ty)}
    (hwanted : ∀ p ∈ wanted, p.2.WellFormed ds) :
    Keeps (WellTyped ds) (resolveParams resolve params wanted)
      fun resolved => ∀ p ∈ resolved, p.2.WellFormed ds := by
  induction params generalizing wanted with
  | nil => exact .pure (by simp)
  | cons p rest ih =>
    obtain ⟨param, id⟩ := p
    have hhead : ∀ p ∈ wanted.head?, p.2.WellFormed ds := fun p hp =>
      hwanted p (List.mem_of_head? hp)
    refine (parameterType_keeps hresolve param hhead).bind fun ty hty =>
      (setSymbolType_keeps id hty).bind fun _ _ =>
        (ih fun p hp => hwanted p (List.mem_of_mem_tail hp)).bind fun resolved hresolved => .pure ?_
    exact List.forall_mem_cons.mpr ⟨hty, hresolved⟩

theorem resolveLambdaParams_keeps (params : List LambdaParam) (symbols : List SymbolId)
    {wanted : List (String × Ty)} (hwanted : ∀ p ∈ wanted, p.2.WellFormed ds) :
    Keeps (WellTyped ds) (resolveLambdaParams ctx resolve params symbols wanted)
      fun found => ∀ p ∈ found.1, p.2.WellFormed ds := by
  refine .ite ?_ ((resolveParams_keeps hresolve _ hwanted).bind fun _ hresolved => .pure hresolved)
  split
  · rename_i id _ name ty rest
    have hty : ty.WellFormed ds := hwanted (name, ty) List.mem_cons_self
    exact (setSymbolType_keeps id hty).bind fun _ _ => .pure (by simpa using hty)
  · exact .pure (by simp)

theorem resolveUnmatched_keeps (arguments : List NodeIndex) {params : List (String × Ty)}
    (hparams : ∀ p ∈ params, p.2.WellFormed ds) :
    Keeps (WellTyped ds) (resolveUnmatched resolve arguments params) fun _ => True := by
  induction arguments generalizing params with
  | nil => exact .pure trivial
  | cons a rest ih =>
    refine (hresolve a _ fun t ht => ?_).bind fun _ _ =>
      ih fun p hp => hparams p (List.mem_of_mem_tail hp)
    obtain ⟨p, hp, rfl⟩ := Option.map_eq_some_iff.mp ht
    exact hparams p (List.mem_of_head? hp)

/-! ## What depends on the expected type -/

include hexpected

theorem resolveBlock_keeps (statements : List NodeIndex) :
    Keeps (WellTyped ds) (resolveBlock ctx resolve expected statements) (Ty.WellFormed ds) := by
  fun_induction resolveBlock ctx resolve expected statements with
  | case1 => exact .pure (Ty.wellFormed_bare _ _)
  | case2 last =>
    refine (hresolve last expected hexpected).bind fun ty hty => .pure ?_
    split
    · exact Ty.wellFormed_bare _ _
    · exact hty
  | case3 c rest _ ih => exact (hresolve.visit c).bind fun _ _ => ih

theorem resolveLambda_keeps (inner : Option ScopeId) (params : List LambdaParam) (body : NodeIndex) :
    Keeps (WellTyped ds) (resolveLambda ctx resolve inner params body expected) (Found ds) := by
  have hwanted : ∀ p ∈ expectedParams expected, p.2.WellFormed ds := by
    intro p hp
    unfold expectedParams at hp
    split at hp
    · exact ((Ty.wellFormed_func _ _).mp (hexpected _ rfl)).1 p hp
    · cases hp
  have hresult : ∀ t ∈ expectedResult expected, t.WellFormed ds := by
    intro t ht
    unfold expectedResult at ht
    split at ht
    · split at ht
      · cases ht
      · cases ht
        exact ((Ty.wellFormed_func _ _).mp (hexpected _ rfl)).2
    · cases ht
  refine .get_bind fun s _ => (resolveLambdaParams_keeps hresolve params _ hwanted).bind
    fun found hfound => (hresolve body _ hresult).bind fun bodyTy hbody => .pure ?_
  exact ⟨(Ty.wellFormed_func _ _).mpr ⟨hfound, hbody⟩, trivial⟩

end Functions

/-! ## What depends on the environment -/

/-- The definitions and the named types are well formed, and the built-in list takes one argument,
as it does however a host registers its own definitions. -/
structure Environment.WellFormed (env : Environment) : Prop where
  definitions : env.definitions.WellFormed
  types : ∀ e ∈ env.types.entries, e.2.WellFormed env.definitions
  list : (Ty.listOf .unknown).WellFormed env.definitions

theorem Environment.WellFormed.listOf {env : Environment} (h : env.WellFormed) {element : Ty}
    (helement : element.WellFormed env.definitions) : (Ty.listOf element).WellFormed env.definitions := by
  obtain ⟨harity, -⟩ := (Ty.wellFormed_bound _ _ _).mp h.list
  exact (Ty.wellFormed_bound _ _ _).mpr ⟨harity, by simpa using helement⟩

section Environment

variable {resolve : Resolver} {expected : Option Ty} (henv : ctx.env.WellFormed)
  (hresolve : KeepsTypes ctx.env.definitions resolve)

include hresolve

theorem symbolTypeWithin_keeps (useSite : NodeIndex) (links : Nat) (id : SymbolId) :
    Keeps (WellTyped ctx.env.definitions) (symbolTypeWithin ctx resolve useSite links id)
      (Ty.WellFormed ctx.env.definitions) := by
  induction links generalizing id with
  | zero => exact .pure Ty.wellFormed_unknown
  | succ links ih =>
    refine .get_bind fun s hs => ?_
    split
    · rename_i ty hty
      exact .pure (hs.symbols id ty hty)
    · split
      · exact .pure Ty.wellFormed_unknown
      · rename_i hsym
        exact .pure (hs.hosts id _ _ _ hsym)
      · refine .ite ((reportAt_keeps _ _ _).bind fun _ _ => .pure Ty.wellFormed_unknown) ?_
        refine (hresolve.visit _).bind fun _ _ => .get_bind fun s1 hs1 => .pure ?_
        cases hget : s1.symbolTypes.get? id with
        | none => exact Ty.wellFormed_unknown
        | some ty => exact hs1.symbols id ty hget
      · exact (reportAt_keeps _ _ _).bind fun _ _ =>
          (setSymbolType_keeps id Ty.wellFormed_unknown).bind fun _ _ => .pure Ty.wellFormed_unknown
      · refine (ih _).bind fun declared hdeclared => (guardType_keeps hresolve _).bind
          fun asserted hasserted => ?_
        have hnarrow := Definitions.wellFormed_narrow hasserted hdeclared
        exact (setSymbolType_keeps id hnarrow).bind fun _ _ => .pure hnarrow

theorem resolveIdentifier_keeps (i : NodeIndex) (σ : ScopeId) (name : String) :
    Keeps (WellTyped ctx.env.definitions) (resolveIdentifier ctx resolve i σ name)
      (Found ctx.env.definitions) := by
  refine .get_bind fun s _ => ?_
  split
  · exact (reportAt_keeps i _ _).bind fun _ _ => .pure found_unknown
  · refine Keeps.bind (P := Ty.WellFormed ctx.env.definitions) ?_ fun ty hty => .pure ⟨hty, trivial⟩
    exact .get_bind fun s1 _ => symbolTypeWithin_keeps hresolve i _ _

theorem resolveConditional_keeps (hexpected : ∀ t ∈ expected, t.WellFormed ctx.env.definitions)
    (condition thenBranch : NodeIndex) (elseBranch : Option NodeIndex) :
    Keeps (WellTyped ctx.env.definitions)
      (resolveConditional ctx resolve condition thenBranch elseBranch expected)
      (Found ctx.env.definitions) := by
  refine (resolveCondition_keeps hresolve condition).bind fun _ _ =>
    (hresolve thenBranch expected hexpected).bind fun thenTy hthen => ?_
  cases elseBranch with
  | some elseBranch =>
    exact (hresolve elseBranch expected hexpected).bind fun elseTy helse =>
      .pure ⟨Definitions.wellFormed_commonSupertype hthen helse, trivial⟩
  | none =>
    refine .pure ⟨?_, trivial⟩
    dsimp only
    split
    · exact Ty.wellFormed_unknown
    · exact Ty.wellFormed_unionOf (by simp [hthen, Ty.null])

include henv

theorem resolveCollection_keeps (hexpected : ∀ t ∈ expected, t.WellFormed ctx.env.definitions)
    (elements : List NodeIndex) :
    Keeps (WellTyped ctx.env.definitions) (resolveCollection resolve elements expected)
      (Found ctx.env.definitions) := by
  refine (Keeps.mapM (fun c => hresolve c _ fun t ht => ?_) elements).bind fun types htypes => ?_
  · obtain ⟨wanted, hwanted, helement⟩ := Option.bind_eq_some_iff.mp ht
    exact (hexpected wanted hwanted).listElement helement
  · refine .pure ⟨henv.listOf ?_, trivial⟩
    split
    · exact Ty.wellFormed_unknown
    · exact Ty.wellFormed_unionOf htypes

theorem resolveTypeRef_keeps (i : NodeIndex) (name : String) (args : List NodeIndex) :
    Keeps (WellTyped ctx.env.definitions) (resolveTypeRef ctx resolve i name args)
      (Found ctx.env.definitions) := by
  refine (Keeps.mapM hresolve.visit args).bind fun types htypes => ?_
  split
  · exact (reportAt_keeps i _ _).bind fun _ _ => .pure found_unknown
  · rename_i ty hty
    dsimp only
    refine .ite ?_ (.ite (.pure ⟨henv.types _ (OrderedMap.mem_of_find hty), trivial⟩) ?_)
    · exact .ite ((reportAt_keeps i _ _).bind fun _ _ => .pure found_unknown)
        ((reportAt_keeps i _ _).bind fun _ _ => .pure found_unknown)
    · split
      · rename_i bound hbound
        exact .pure ⟨Definitions.wellFormed_bind htypes hbound, trivial⟩
      · exact .pure found_unknown

theorem resolveMember_keeps (i object : NodeIndex) (member : String) :
    Keeps (WellTyped ctx.env.definitions) (resolveMember ctx resolve i object member)
      (Found ctx.env.definitions) := by
  refine (hresolve.visit object).bind fun objectTy hobject => .ite (.pure found_unknown) ?_
  split
  · exact (reportAt_keeps i _ _).bind fun _ _ => .pure found_unknown
  · rename_i found hfound
    have hmember : found.ty.WellFormed ctx.env.definitions :=
      henv.definitions.hereditary.findMembers hobject.widen (hfound ▸ List.mem_singleton_self found)
    exact .pure ⟨hmember, hmember⟩
  · exact (reportAt_keeps i _ _).bind fun _ _ => .pure found_unknown

theorem resolveArguments_keeps {order : List Argument} {inference : Inference}
    (horder : ∀ a ∈ order, a.parameter.WellFormed ctx.env.definitions)
    (hinference : inference.bindings.All (Ty.WellFormed ctx.env.definitions)) (types : List Ty) :
    Keeps (WellTyped ctx.env.definitions) (resolveArguments ctx resolve order inference types)
      fun found => found.1.bindings.All (Ty.WellFormed ctx.env.definitions) := by
  induction order generalizing inference types with
  | nil => exact .pure hinference
  | cons a rest ih =>
    have ha := horder a List.mem_cons_self
    refine (hresolve.visitAgainst a.node (ha.instantiate hinference)).bind fun ty hty => ?_
    exact ih (fun b hb => horder b (List.mem_cons_of_mem _ hb))
      (henv.definitions.hereditary.infer hinference hty) _

theorem resolveCall_keeps {params : List (String × Ty)} {result : Ty}
    (hcallee : (Ty.func params result).WellFormed ctx.env.definitions) (arguments : List NodeIndex) :
    Keeps (WellTyped ctx.env.definitions)
      (resolveCall ctx resolve (.func params result) params arguments)
      (Found ctx.env.definitions) := by
  have horder : ∀ a ∈ resolutionOrder ctx (argumentsOf arguments params),
      a.parameter.WellFormed ctx.env.definitions := by
    intro a ha
    obtain ⟨-, name, hp⟩ := mem_resolutionOrder ha
    exact ((Ty.wellFormed_func params result).mp hcallee).1 _ hp
  refine (resolveArguments_keeps henv hresolve horder Substitution.all_empty _).bind
    fun found hfound => ?_
  obtain ⟨inference, types⟩ := found
  have hsignature := hcallee.instantiate (Inference.finish_all Ty.wellFormed_unknown hfound)
  dsimp only
  split
  · rename_i params' result' heq
    rw [heq] at hsignature
    refine (Keeps.forM (fun _ => .ite (.pure trivial) (reportAt_keeps _ _ _)) _).bind fun _ _ => ?_
    exact .pure ⟨((Ty.wellFormed_func _ _).mp hsignature).2, hsignature⟩
  · exact .pure found_unknown

theorem resolveInvocation_keeps (i callee : NodeIndex) (arguments : List NodeIndex) :
    Keeps (WellTyped ctx.env.definitions) (resolveInvocation ctx resolve i callee arguments)
      (Found ctx.env.definitions) := by
  refine (hresolve.visit callee).bind fun calleeTy hcallee => ?_
  split
  · rename_i params result
    refine .ite (resolveCall_keeps henv hresolve hcallee arguments) ?_
    exact (reportAt_keeps i _ _).bind fun _ _ =>
      (resolveUnmatched_keeps hresolve arguments ((Ty.wellFormed_func _ _).mp hcallee).1).bind
        fun _ _ => .pure found_unknown
  · have hrest : Keeps _ (do resolveUnmatched resolve arguments []; pure (.unknown, .none))
        (Found ctx.env.definitions) :=
      (resolveUnmatched_keeps hresolve arguments (by simp)).bind fun _ _ => .pure found_unknown
    exact .ite ((reportAt_keeps callee _ _).bind fun _ _ => hrest) hrest

theorem resolveKind_keeps (hexpected : ∀ t ∈ expected, t.WellFormed ctx.env.definitions)
    (i : NodeIndex) (sc : NodeScopes) (kind : NodeKind) :
    Keeps (WellTyped ctx.env.definitions) (resolveKind ctx resolve i sc expected kind)
      (Found ctx.env.definitions) := by
  cases kind with
  | identifier name => exact resolveIdentifier_keeps hresolve i sc.scope name
  | literal value => exact .pure ⟨Ty.wellFormed_ofConstant value, trivial⟩
  | collection elements => exact resolveCollection_keeps henv hresolve hexpected elements
  | conditional condition thenBranch elseBranch =>
    exact resolveConditional_keeps hresolve hexpected condition thenBranch elseBranch
  | invocation callee arguments trailing =>
    exact resolveInvocation_keeps henv hresolve i callee (arguments ++ trailing.toList)
  | memberAccess object member => exact resolveMember_keeps henv hresolve i object member
  | lambda params body => exact resolveLambda_keeps hexpected hresolve sc.inner params body
  | typeTest operand target => exact resolveTypeTest_keeps hresolve operand target
  | conjunction left right => exact resolveConjunction_keeps hresolve left right
  | block statements =>
    exact (resolveBlock_keeps hexpected hresolve statements).bind fun _ hty => .pure ⟨hty, trivial⟩
  | declaration name isConst ascription initializer =>
    exact resolveDeclaration_keeps hresolve i isConst ascription initializer
  | assignment target value => exact resolveAssignment_keeps hresolve target value
  | typeRef name args => exact resolveTypeRef_keeps henv hresolve i name args

end Environment

/-! ## A whole check -/

theorem record_keeps (i : NodeIndex) {ty : Ty} {binding : Binding} (hfound : Found ds (ty, binding)) :
    Keeps (WellTyped ds) (record i ty binding) fun _ => True := by
  refine .modify fun s hs => ?_
  unfold NodeStates.record?
  split
  · rename_i sc hwired
    refine hs.set hwired fun r hr => ?_
    cases hr
    exact hfound
  · exact hs

theorem reportTooDeep_keeps (i : NodeIndex) :
    Keeps (WellTyped ds) (reportTooDeep ctx i) fun _ => True :=
  .get_bind fun _ _ => .ite ((Keeps.modify fun _ hs => hs.of_same rfl rfl rfl).bind fun _ _ =>
    reportAt_keeps i _ _) (.pure trivial)

theorem resolveWithin_keeps (henv : ctx.env.WellFormed) (remaining : Nat) :
    KeepsTypes ctx.env.definitions (resolveWithin ctx remaining) := by
  refine resolveWithin_induction (fun remaining hbelow i expected hexpected => ?_) remaining
  unfold resolveWithin
  refine .get_bind fun s hs => ?_
  split
  · rename_i ty hty
    exact .pure (hs.type hty)
  · split
    · split
      · exact (reportTooDeep_keeps i).bind fun _ _ =>
          (record_keeps i found_unknown).bind fun _ _ => .pure Ty.wellFormed_unknown
      · rename_i below
        refine (Keeps.modify fun _ hs => hs.of_same rfl rfl rfl).bind fun _ _ =>
          (resolveKind_keeps henv (hbelow below rfl) hexpected i _ _).bind fun found hfound =>
            (Keeps.modify fun _ hs => hs.of_same rfl rfl rfl).bind fun _ _ => ?_
        exact (record_keeps i hfound).bind fun _ _ => .pure hfound.1
    · exact .pure Ty.wellFormed_unknown

theorem resolveRest_keeps (henv : ctx.env.WellFormed) (rest : List NodeIndex) :
    Keeps (WellTyped ctx.env.definitions) (resolveRest ctx rest) fun _ => True := by
  intro s hs
  refine (resolveRest_after (fun i _ s hs => ?_) hs).mono fun _ _ hs' => ⟨trivial, hs'⟩
  exact ((resolveWithin_keeps henv _).visit i s hs).mono fun _ _ h => h.2

variable {root : NodeIndex} {σ : ScopeId} {expected : Option Ty} {table table' : SymbolTable}
  {result : CheckResult}

theorem checkRoot_keeps (henv : ctx.env.WellFormed)
    (hexpected : ∀ t ∈ expected, t.WellFormed ctx.env.definitions) :
    Keeps (WellTyped ctx.env.definitions) (checkRoot ctx root σ expected)
      (Ty.WellFormed ctx.env.definitions) := by
  refine ((wellTyped_keptByWiring _).wire ctx root σ).bind fun _ _ =>
    (resolveWithin_keeps henv _ root expected hexpected).bind fun ty hty => ?_
  have hrest := (resolveRest_keeps henv (ctx.tree.descendants root)).bind fun _ _ => Keeps.pure hty
  cases expected with
  | none => exact hrest
  | some target => exact (checkAssignable_keeps root ty target).bind fun _ _ => hrest

/-- Over well-formed inputs a check records well-formed types only, for nodes, in bindings and for
symbols. -/
theorem check_keeps_wellFormed (henv : ctx.env.WellFormed)
    (hhosts : ∀ id name ty isConst, table.symbol? id = some ⟨name, .host ty isConst⟩ →
      ty.WellFormed ctx.env.definitions)
    (hexpected : ∀ t, expected = some t → t.WellFormed ctx.env.definitions)
    (hcheck : check ctx table root σ expected = (result, table')) :
    result.rootType.WellFormed ctx.env.definitions ∧
    (∀ n r, result.nodes.resolution? n = some r →
      r.ty.WellFormed ctx.env.definitions ∧ r.binding.WellFormed ctx.env.definitions) ∧
    ∀ id ty, result.symbolTypes.get? id = some ty → ty.WellFormed ctx.env.definitions := by
  have hstart : (Session.start ctx table).WellTyped ctx.env.definitions := by
    refine ⟨fun n r hr => ?_, fun id ty hty => ?_, hhosts⟩
    · rw [NodeStates.resolution?, Session.start, NodeStates.initial, NodeStates.get?,
        Array.getElem?_replicate] at hr
      split at hr <;> cases hr
    · cases hty
  obtain ⟨hty, hs⟩ : (checkRoot ctx root σ expected).After (.start ctx table) _ :=
    checkRoot_keeps henv hexpected _ hstart
  cases hcheck
  exact ⟨hty, hs.nodes, hs.symbols⟩

/-- `[v, null].map({ item -> if (item is string) item })`, with a `v` given by the host. -/
def mappedContext : Context where
  env := .initial
  options := {}
  tree := ⟨#[⟨.identifier "v", Span.empty⟩, ⟨.literal .null, Span.empty⟩,
    ⟨.collection [0, 1], Span.empty⟩, ⟨.memberAccess 2 "map", Span.empty⟩,
    ⟨.identifier "item", Span.empty⟩, ⟨.typeRef "string" [], Span.empty⟩,
    ⟨.typeTest 4 5, Span.empty⟩, ⟨.identifier "item", Span.empty⟩,
    ⟨.conditional 6 7 none, Span.empty⟩, ⟨.lambda [⟨"item", none, Span.empty⟩] 8, Span.empty⟩,
    ⟨.invocation 3 [9] none, Span.empty⟩]⟩

/-- The elements and the results of the call are unions made on the way. -/
theorem mapped_union_wellFormed : ∃ result table',
    check mappedContext guardedTable 10 0 none = (result, table') ∧
      result.nodes.type? 2 = some (Ty.listOf (.union [Ty.number, Ty.string, Ty.null])) ∧
      result.rootType = Ty.listOf (.union [Ty.string, Ty.null]) ∧
      result.rootType.WellFormed mappedContext.env.definitions := by
  have henv : mappedContext.env.WellFormed :=
    ⟨by decide +kernel, by decide +kernel, Definitions.Registered.builtin.list⟩
  have hhosts : ∀ id name ty isConst, guardedTable.symbol? id = some ⟨name, .host ty isConst⟩ →
      ty.WellFormed mappedContext.env.definitions := by
    intro id name ty isConst hsym
    have hlt : id < guardedTable.symbols.size := SymbolTable.symbol_lt hsym
    obtain rfl : id = 0 := Nat.lt_one_iff.mp hlt
    cases hsym
    decide +kernel
  have helements : (check mappedContext guardedTable 10 0 none).1.nodes.type? 2 =
      some (Ty.listOf (.union [Ty.number, Ty.string, Ty.null])) := by decide +kernel
  have hroot : (check mappedContext guardedTable 10 0 none).1.rootType =
      Ty.listOf (.union [Ty.string, Ty.null]) := by decide +kernel
  generalize hcheck : check mappedContext guardedTable 10 0 none = outcome at helements hroot
  obtain ⟨result, table'⟩ := outcome
  refine ⟨result, table', rfl, helements, hroot, ?_⟩
  exact (check_keeps_wellFormed henv hhosts (by simp) hcheck).1

end ScriptTyping
