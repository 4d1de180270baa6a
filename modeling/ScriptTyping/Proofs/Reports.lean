import ScriptTyping.Proofs.Moves

/-!
# What a node reports

A node reports about itself, about its children and about its parameters. Every kind of node has a
list of what it may find, and in the course of its resolution it reports part of that list, in this
order and each entry at most once; all else that is reported meanwhile comes from the nodes that it
asks for.
-/

namespace ScriptTyping

open Check

variable {α β : Type} {ctx : Context} {resolve : Resolver} {table : SymbolTable} {i c : NodeIndex}
  {sc : NodeScopes} {s s' s'' : Session} {expected : Option Ty}

/-- A code and a place: what makes two findings the same. -/
abbrev ReportSite := Nat × Span

def Diagnostic.site (f : Diagnostic) : ReportSite := (f.code, f.span)

def Context.site (ctx : Context) (n : NodeIndex) (m : Message) : ReportSite :=
  (m.code, ctx.tree.span n)

/-- What a node of the kind may find. -/
def Context.findings (ctx : Context) (i : NodeIndex) : NodeKind → List ReportSite
  | .identifier _ => [.cannotFindName, .circularReference, .parameterNotInferred].map (ctx.site i)
  | .conditional condition _ _ => [ctx.site condition .conditionNotBoolean]
  | .invocation callee arguments trailing =>
    ctx.site callee .notInvocable :: ctx.site i .argumentCount ::
      (arguments ++ trailing.toList).map (ctx.site · .argumentNotAssignable)
  | .memberAccess _ _ => [.memberNotFound, .memberAmbiguous].map (ctx.site i)
  | .lambda params _ => params.map fun p => (Message.parameterNotInferred.code, p.span)
  | .typeTest operand _ => [ctx.site operand .guardNotNarrowing]
  | .conjunction left right => [left, right].map (ctx.site · .conditionNotBoolean)
  | .declaration _ _ _ initializer => [ctx.site initializer .typeNotAssignable]
  | .assignment target value =>
    [ctx.site target .invalidAssignmentTarget, ctx.site target .assignmentToConst,
      ctx.site value .typeNotAssignable]
  | .typeRef _ _ =>
    [.cannotFindType, .typeArgumentsRequired, .typeArgumentCount].map (ctx.site i)
  | .literal _ | .collection _ | .block _ => []

/-! ## Rows of questions and findings -/

/-- A node that `i` may ask for: a child, the declaration of a symbol that it reads, or the target
of a guard that narrows one. -/
inductive Asks (ctx : Context) (table : SymbolTable) (i : NodeIndex) (sc : NodeScopes)
    (s : Session) : NodeIndex → Prop
  | child {c : NodeIndex} (hc : ctx.tree.Child i c) : Asks ctx table i sc s c
  | demand {id : SymbolId} {name : String} {d : NodeIndex} {isConst : Bool}
      (hread : Reads ctx table i sc.scope id)
      (hsym : table.symbol? id = some ⟨name, .source d isConst⟩) (hd : d ∉ s.inProgress) :
      Asks ctx table i sc s d
  | target {id o : SymbolId} {name : String} {g operand target : NodeIndex}
      (hread : Reads ctx table i sc.scope id)
      (hsym : table.symbol? id = some ⟨name, .narrowed o g⟩)
      (hk : ctx.tree.kind? g = some (.typeTest operand target)) : Asks ctx table i sc s target

/-- In between `i` asks for nodes, gives symbols their types, and reports `told` itself. -/
inductive Row (ctx : Context) (resolve : Resolver) (table : SymbolTable) (i : NodeIndex)
    (sc : NodeScopes) : List ReportSite → Session → Session → Prop
  | start (s : Session) : Row ctx resolve table i sc [] s s
  | ask {told : List ReportSite} {s s' : Session} {k : NodeIndex}
      (h : Row ctx resolve table i sc told s s') (hk : Asks ctx table i sc s' k)
      (expected : Option Ty) : Row ctx resolve table i sc told s (resolve k expected s').2
  | set {told : List ReportSite} {s s' : Session} (h : Row ctx resolve table i sc told s s')
      (types : OrderedMap SymbolId Ty) :
      Row ctx resolve table i sc told s { s' with symbolTypes := types }
  | tell {told : List ReportSite} {s s' : Session} (h : Row ctx resolve table i sc told s s')
      (found : Diagnostic) : Row ctx resolve table i sc (told ++ [found.site]) s
        { s' with diagnostics := s'.diagnostics ++ [found] }

variable {told told' : List ReportSite}

theorem Row.trans (h : Row ctx resolve table i sc told s s')
    (h' : Row ctx resolve table i sc told' s' s'') :
    Row ctx resolve table i sc (told ++ told') s s'' := by
  induction h' with
  | start => rwa [List.append_nil]
  | ask _ hk expected ih => exact .ask (ih h) hk expected
  | set _ types ih => exact .set (ih h) types
  | tell _ found ih =>
    rw [← List.append_assoc]
    exact .tell (ih h) found

/-- Over the table, the computation is a row in which part of the list is told. -/
def Tells (ctx : Context) (resolve : Resolver) (table : SymbolTable) (i : NodeIndex)
    (sc : NodeScopes) (told : List ReportSite) (m : Check α) : Prop :=
  ∀ s, s.table = table → m.After s fun _ s' => s'.table = table ∧
    ∃ part, part.Sublist told ∧ Row ctx resolve table i sc part s s'

namespace Tells

theorem pure (a : α) : Tells ctx resolve table i sc told (pure a : Check α) :=
  fun s hs => ⟨hs, [], List.nil_sublist _, .start s⟩

theorem mono {m : Check α} (h : Tells ctx resolve table i sc told m) (hle : told.Sublist told') :
    Tells ctx resolve table i sc told' m := by
  intro s hs
  refine (h s hs).mono ?_
  rintro a s' ⟨hs', part, hpart, hrow⟩
  exact ⟨hs', part, hpart.trans hle, hrow⟩

theorem bind {m : Check α} {f : α → Check β} (hm : Tells ctx resolve table i sc told m)
    (hf : ∀ a, Tells ctx resolve table i sc told' (f a)) :
    Tells ctx resolve table i sc (told ++ told') (m >>= f) := by
  intro s hs
  rw [after_bind]
  refine (hm s hs).mono ?_
  rintro a s1 ⟨hs1, part, hpart, hrow⟩
  refine (hf a s1 hs1).mono ?_
  rintro b s2 ⟨hs2, part', hpart', hrow'⟩
  exact ⟨hs2, part ++ part', hpart.append hpart', hrow.trans hrow'⟩

theorem quietly {m : Check α} {f : α → Check β} (hm : Tells ctx resolve table i sc [] m)
    (hf : ∀ a, Tells ctx resolve table i sc told (f a)) :
    Tells ctx resolve table i sc told (m >>= f) :=
  hm.bind hf

theorem last {m : Check α} {f : α → Check β} (hm : Tells ctx resolve table i sc told m)
    (hf : ∀ a, Tells ctx resolve table i sc [] (f a)) :
    Tells ctx resolve table i sc told (m >>= f) := by
  have h := hm.bind hf
  rwa [List.append_nil] at h

theorem get_bind {f : Session → Check β}
    (hf : ∀ s, s.table = table → Tells ctx resolve table i sc told (f s)) :
    Tells ctx resolve table i sc told (MonadState.get >>= f) := by
  intro s hs
  rw [after_bind]
  exact hf s hs s hs

theorem ite {p : Prop} [Decidable p] {m m' : Check α} (hm : Tells ctx resolve table i sc told m)
    (hm' : Tells ctx resolve table i sc told m') :
    Tells ctx resolve table i sc told (if p then m else m') := by
  split
  · exact hm
  · exact hm'

theorem visit (hkeeps : KeepsTable resolve) (hc : ctx.tree.Child i c) (expected : Option Ty) :
    Tells ctx resolve table i sc [] (resolve c expected) :=
  fun s hs => ⟨(hkeeps c expected s).trans hs, [], .slnil, .ask (.start s) (.child hc) expected⟩

theorem report (span : Span) (m : Message) (args : List String) :
    Tells ctx resolve table i sc [(m.code, span)] (Check.report span m args) :=
  fun s hs => ⟨hs, _, .refl _, .tell (.start s) (.ofMessage span m args)⟩

theorem reportAt (n : NodeIndex) (m : Message) (args : List String) :
    Tells ctx resolve table i sc [ctx.site n m] (Check.reportAt ctx n m args) :=
  report _ m args

theorem answer {n : NodeIndex} {m : Message} (hm : ctx.site n m ∈ told) (args : List String)
    (a : α) : Tells ctx resolve table i sc told (do Check.reportAt ctx n m args; Pure.pure a) :=
  ((reportAt n m args).last fun _ => pure a).mono (List.singleton_sublist.mpr hm)

theorem setSymbolType (id : SymbolId) (ty : Ty) :
    Tells ctx resolve table i sc [] (Check.setSymbolType id ty) :=
  fun s hs => ⟨hs, [], .slnil, .set (.start s) _⟩

theorem mapM {f : NodeIndex → Check β} {cs : List NodeIndex}
    (hf : ∀ c ∈ cs, Tells ctx resolve table i sc [] (f c)) :
    Tells ctx resolve table i sc [] (cs.mapM f) := by
  induction cs with
  | nil => exact pure []
  | cons c cs ih =>
    rw [List.mapM_cons]
    exact (hf c List.mem_cons_self).bind fun y =>
      (ih fun c' hc' => hf c' (List.mem_cons_of_mem c hc')).last fun ys => pure _

theorem forM {f : α → Check Unit} {site : α → ReportSite}
    (hf : ∀ x, Tells ctx resolve table i sc [site x] (f x)) (xs : List α) :
    Tells ctx resolve table i sc (xs.map site) (xs.forM f) := by
  induction xs with
  | nil => exact pure ()
  | cons x xs ih => exact (hf x).bind fun _ => ih

end Tells

/-! ## Simple expressions and statements -/

section Functions

variable (hkeeps : KeepsTable resolve)

theorem checkAssignable_tells (n : NodeIndex) (source target : Ty) :
    Tells ctx resolve table i sc [ctx.site n .typeNotAssignable]
      (checkAssignable ctx n source target) :=
  .ite (.pure ()) (.reportAt n _ _)

theorem checkArgument_tells (argument : NodeIndex) (ty parameter : Ty) :
    Tells ctx resolve table i sc [ctx.site argument .argumentNotAssignable]
      (checkArgument ctx argument ty parameter) :=
  .ite (.pure ()) (.reportAt argument _ _)

include hkeeps

theorem resolveCondition_tells {condition : NodeIndex} (hc : ctx.tree.Child i condition) :
    Tells ctx resolve table i sc [ctx.site condition .conditionNotBoolean]
      (resolveCondition ctx resolve condition) :=
  (Tells.visit hkeeps hc _).quietly fun _ => .ite (.pure ()) (.reportAt condition _ _)

theorem resolveCollection_tells {elements : List NodeIndex}
    (hc : ∀ c ∈ elements, ctx.tree.Child i c) :
    Tells ctx resolve table i sc [] (resolveCollection resolve elements expected) :=
  (Tells.mapM fun c hmem => .visit hkeeps (hc c hmem) _).quietly fun _ => .pure _

theorem resolveConditional_tells {condition thenBranch : NodeIndex} {elseBranch : Option NodeIndex}
    (hc : ∀ c ∈ condition :: thenBranch :: elseBranch.toList, ctx.tree.Child i c) :
    Tells ctx resolve table i sc [ctx.site condition .conditionNotBoolean]
      (resolveConditional ctx resolve condition thenBranch elseBranch expected) := by
  refine (resolveCondition_tells hkeeps (hc condition (by simp))).last fun _ =>
    (Tells.visit hkeeps (hc thenBranch (by simp)) expected).quietly fun thenTy => ?_
  cases elseBranch with
  | none => exact .pure _
  | some elseBranch =>
    exact (Tells.visit hkeeps (hc elseBranch (by simp)) expected).quietly fun _ => .pure _

theorem resolveConjunction_tells {left right : NodeIndex} (hl : ctx.tree.Child i left)
    (hr : ctx.tree.Child i right) :
    Tells ctx resolve table i sc ([left, right].map (ctx.site · .conditionNotBoolean))
      (resolveConjunction ctx resolve left right) :=
  (resolveCondition_tells hkeeps hl).bind fun _ =>
    (resolveCondition_tells hkeeps hr).last fun _ => .pure _

theorem resolveTypeTest_tells {operand target : NodeIndex} (ho : ctx.tree.Child i operand)
    (ht : ctx.tree.Child i target) :
    Tells ctx resolve table i sc [ctx.site operand .guardNotNarrowing]
      (resolveTypeTest ctx resolve operand target) := by
  refine (Tells.visit hkeeps ho none).quietly fun _ =>
    (Tells.visit hkeeps ht none).quietly fun asserted => .get_bind fun s _ => ?_
  dsimp only
  split
  · exact .ite (.answer (by simp) _ _) (.pure _)
  · exact .pure _

theorem resolveBlock_tells {statements : List NodeIndex}
    (hc : ∀ c ∈ statements, ctx.tree.Child i c) :
    Tells ctx resolve table i sc [] (resolveBlock ctx resolve expected statements) := by
  fun_induction resolveBlock ctx resolve expected statements with
  | case1 => exact .pure _
  | case2 last => exact (Tells.visit hkeeps (hc last (by simp)) expected).quietly fun _ => .pure _
  | case3 c rest _ ih =>
    exact (Tells.visit hkeeps (hc c (by simp)) none).quietly fun _ =>
      ih fun c' hmem => hc c' (List.mem_cons_of_mem c hmem)

theorem resolveInitializer_tells (isConst : Bool) {ascription : Option NodeIndex}
    {initializer : NodeIndex} (hc : ∀ c ∈ ascription.toList ++ [initializer], ctx.tree.Child i c) :
    Tells ctx resolve table i sc [ctx.site initializer .typeNotAssignable]
      (resolveInitializer ctx resolve isConst ascription initializer) := by
  have hinitializer : ctx.tree.Child i initializer := hc initializer (by simp)
  cases ascription with
  | none => exact (Tells.visit hkeeps hinitializer none).quietly fun _ => .pure _
  | some ascription =>
    exact (Tells.visit hkeeps (hc ascription (by simp)) none).quietly fun ascribed =>
      (Tells.visit hkeeps hinitializer (some ascribed)).quietly fun ty =>
        (checkAssignable_tells initializer ty ascribed).last fun _ => .pure _

theorem resolveAssignment_tells {target value : NodeIndex} (ht : ctx.tree.Child i target)
    (hv : ctx.tree.Child i value) :
    Tells ctx resolve table i sc
      [ctx.site target .invalidAssignmentTarget, ctx.site target .assignmentToConst,
        ctx.site value .typeNotAssignable]
      (resolveAssignment ctx resolve target value) := by
  unfold resolveAssignment
  split
  · refine Tells.mono ?_ (List.sublist_append_left [ctx.site target .invalidAssignmentTarget] _)
    exact (Tells.visit hkeeps ht none).quietly fun _ => (Tells.visit hkeeps hv none).quietly
      fun _ => (Tells.reportAt target _ _).last fun _ => .pure _
  · refine (Tells.visit hkeeps ht none).quietly fun targetTy => .get_bind fun s _ => ?_
    split
    · exact (Tells.visit hkeeps hv none).quietly fun _ => .pure _
    · split
      · refine Tells.mono ((Tells.reportAt target .assignmentToConst _).last fun _ => ?_) (by simp)
        exact (Tells.visit hkeeps hv (some targetTy)).quietly fun _ => .pure _
      · refine Tells.mono ((Tells.visit hkeeps hv (some targetTy)).quietly fun valueTy =>
          (checkAssignable_tells value valueTy targetTy).last fun _ => .pure _) ?_
        simp

theorem resolveTypeRef_tells (name : String) {args : List NodeIndex}
    (hc : ∀ c ∈ args, ctx.tree.Child i c) :
    Tells ctx resolve table i sc (ctx.findings i (.typeRef name args))
      (resolveTypeRef ctx resolve i name args) := by
  refine (Tells.mapM fun c hmem => .visit hkeeps (hc c hmem) none).quietly fun types => ?_
  have hone : ∀ m ∈ [Message.cannotFindType, .typeArgumentsRequired, .typeArgumentCount],
      ctx.site i m ∈ ctx.findings i (.typeRef name args) := fun m hm => List.mem_map_of_mem hm
  split
  · exact .answer (hone _ (by simp)) _ _
  · refine .ite ?_ (.ite (.pure _) ?_)
    · exact .ite (.answer (hone _ (by simp)) _ _) (.answer (hone _ (by simp)) _ _)
    · split
      · exact .pure _
      · exact .pure _

/-! ## Calls, member reads and lambdas -/

theorem resolveArguments_tells {order : List Argument} (hc : ∀ a ∈ order, ctx.tree.Child i a.node)
    (inference : Inference) (types : List Ty) :
    Tells ctx resolve table i sc [] (resolveArguments ctx resolve order inference types) := by
  induction order generalizing inference types with
  | nil => exact .pure _
  | cons a rest ih =>
    exact (Tells.visit hkeeps (hc a List.mem_cons_self) _).quietly fun ty =>
      ih (fun b hb => hc b (List.mem_cons_of_mem a hb)) _ _

theorem resolveUnmatched_tells {arguments : List NodeIndex}
    (hc : ∀ c ∈ arguments, ctx.tree.Child i c) (params : List (String × Ty)) :
    Tells ctx resolve table i sc [] (resolveUnmatched resolve arguments params) := by
  induction arguments generalizing params with
  | nil => exact .pure _
  | cons a rest ih =>
    exact (Tells.visit hkeeps (hc a List.mem_cons_self) _).quietly fun _ =>
      ih (fun b hb => hc b (List.mem_cons_of_mem a hb)) _

theorem resolveCall_tells {callee : Ty} {params : List (String × Ty)} {arguments : List NodeIndex}
    (hc : ∀ c ∈ arguments, ctx.tree.Child i c) :
    Tells ctx resolve table i sc (arguments.map (ctx.site · .argumentNotAssignable))
      (resolveCall ctx resolve callee params arguments) := by
  unfold resolveCall
  refine (resolveArguments_tells hkeeps
    (fun a ha => hc _ (mem_resolutionOrder ha).1) _ _).quietly ?_
  rintro ⟨inference, types⟩
  dsimp only
  split
  · rename_i params result _
    refine Tells.last ?_ fun _ => .pure _
    refine Tells.mono (Tells.forM (fun x : (NodeIndex × Ty) × String × Ty =>
      checkArgument_tells x.1.1 x.1.2 x.2.2) _) ?_
    have hnodes := (map_fst_zip_sublist (arguments.zip types) params).map (·.1)
    have hplaces := (hnodes.trans (map_fst_zip_sublist arguments types)).map
      (ctx.site · .argumentNotAssignable)
    simpa only [List.map_map, Function.comp_def] using hplaces
  · exact .pure _

theorem resolveInvocation_tells {callee : NodeIndex} {arguments : List NodeIndex}
    {trailing : Option NodeIndex}
    (hc : ∀ c ∈ callee :: (arguments ++ trailing.toList), ctx.tree.Child i c) :
    Tells ctx resolve table i sc (ctx.findings i (.invocation callee arguments trailing))
      (resolveInvocation ctx resolve i callee (arguments ++ trailing.toList)) := by
  have hargs : ∀ c ∈ arguments ++ trailing.toList, ctx.tree.Child i c := fun c hmem =>
    hc c (List.mem_cons_of_mem callee hmem)
  have hrest : ∀ params, Tells ctx resolve table i sc []
      (do resolveUnmatched resolve (arguments ++ trailing.toList) params
          pure (Ty.unknown, Binding.none)) := fun params =>
    (resolveUnmatched_tells hkeeps hargs params).quietly fun _ => .pure _
  refine (Tells.visit hkeeps (hc callee List.mem_cons_self) none).quietly fun calleeTy => ?_
  split
  · split
    · exact (resolveCall_tells hkeeps hargs).mono ((List.sublist_cons_self _ _).cons _)
    · refine Tells.mono ((Tells.reportAt i _ _).last fun _ => hrest _) ?_
      exact List.singleton_sublist.mpr (by simp [Context.findings])
  · refine Tells.ite ?_ ((hrest []).mono (List.nil_sublist _))
    refine Tells.mono ((Tells.reportAt callee _ _).last fun _ => hrest []) ?_
    exact List.singleton_sublist.mpr (by simp [Context.findings])

theorem resolveMember_tells {object : NodeIndex} (hc : ctx.tree.Child i object) (member : String) :
    Tells ctx resolve table i sc (ctx.findings i (.memberAccess object member))
      (resolveMember ctx resolve i object member) := by
  refine (Tells.visit hkeeps hc none).quietly fun objectTy => .ite (.pure _) ?_
  split
  · exact .answer (by simp [Context.findings]) _ _
  · exact .pure _
  · exact .answer (by simp [Context.findings]) _ _

theorem parameterType_tells {param : LambdaParam}
    (hc : ∀ c ∈ param.ascription, ctx.tree.Child i c) (wanted : Option (String × Ty)) :
    Tells ctx resolve table i sc [(Message.parameterNotInferred.code, param.span)]
      (parameterType resolve param wanted) := by
  unfold parameterType
  split
  · rename_i ascription hsome
    exact (Tells.visit hkeeps (hc ascription hsome) none).mono (List.nil_sublist _)
  · exact .pure _
  · exact (Tells.report _ _ _).last fun _ => .pure _

theorem resolveParams_tells {params : List (LambdaParam × SymbolId)}
    (hc : ∀ p ∈ params, ∀ c ∈ p.1.ascription, ctx.tree.Child i c) (wanted : List (String × Ty)) :
    Tells ctx resolve table i sc
      (params.map fun p => (Message.parameterNotInferred.code, p.1.span))
      (resolveParams resolve params wanted) := by
  induction params generalizing wanted with
  | nil => exact .pure _
  | cons p rest ih =>
    have hrest := ih (fun q hq => hc q (List.mem_cons_of_mem p hq)) wanted.tail
    exact (parameterType_tells hkeeps (hc p List.mem_cons_self) wanted.head?).bind fun ty =>
      (Tells.setSymbolType p.2 ty).quietly fun _ => hrest.last fun _ => .pure _

theorem resolveLambda_tells {params : List LambdaParam} {body : NodeIndex}
    (hc : ∀ c ∈ params.filterMap (·.ascription) ++ [body], ctx.tree.Child i c)
    (inner : Option ScopeId) :
    Tells ctx resolve table i sc (ctx.findings i (.lambda params body))
      (resolveLambda ctx resolve inner params body expected) := by
  refine .get_bind fun s hs => ?_
  refine Tells.last ?_ fun found =>
    (Tells.visit hkeeps (hc body (by simp)) _).quietly fun _ => .pure _
  unfold resolveLambdaParams
  split
  · split
    · exact (Tells.setSymbolType _ _).quietly fun _ => .pure _
    · exact .pure _
  · refine Tells.mono ((resolveParams_tells hkeeps ?_ _).last fun _ => .pure _) ?_
    · intro p hp c hascription
      refine hc c (List.mem_append_left _ (List.mem_filterMap.mpr ⟨p.1, ?_, hascription⟩))
      exact (List.of_mem_zip hp).1
    · have hparams := (map_fst_zip_sublist params
        (((inner.bind s.table.scope?).map (·.symbols)).getD [])).map
          fun p => (Message.parameterNotInferred.code, p.span)
      simpa only [Context.findings, List.map_map, Function.comp_def] using hparams

/-! ## Identifiers -/

theorem guardType_tells {id o : SymbolId} {name : String} {g : NodeIndex}
    (hread : Reads ctx table i sc.scope id)
    (hsym : table.symbol? id = some ⟨name, .narrowed o g⟩) :
    Tells ctx resolve table i sc [] (guardType ctx resolve g) := by
  unfold guardType
  split
  · rename_i operand target hk
    exact fun s hs => ⟨(hkeeps target none s).trans hs, [], .slnil,
      .ask (.start s) (.target hread hsym hk) none⟩
  · exact .pure _

theorem symbolTypeWithin_tells {id : SymbolId} (links : Nat)
    (hread : Reads ctx table i sc.scope id) :
    Tells ctx resolve table i sc
      ([.circularReference, .parameterNotInferred].map (ctx.site i))
      (symbolTypeWithin ctx resolve i links id) := by
  induction links generalizing id with
  | zero => exact .pure _
  | succ links ih =>
    intro s hs
    unfold symbolTypeWithin
    simp only [after_bind, after_get]
    split
    · exact Tells.pure _ s hs
    · rw [hs]
      split
      · exact Tells.pure _ s hs
      · exact Tells.pure _ s hs
      · rename_i name d isConst hsym
        split
        · exact Tells.answer (by simp) _ _ s hs
        · rename_i hd
          exact ⟨(hkeeps d none s).trans hs, [], List.nil_sublist _,
            .ask (.start s) (.demand hread hsym (by simpa using hd)) none⟩
      · rename_i name l k hsym
        refine Tells.mono ((Tells.reportAt i .parameterNotInferred _).last fun _ => ?_)
          (by simp) s hs
        exact (Tells.setSymbolType _ _).quietly fun _ => .pure _
      · rename_i name o g hsym
        exact ((ih (.original hread hsym)).last fun declared =>
          (guardType_tells hkeeps hread hsym).quietly fun asserted =>
            (Tells.setSymbolType _ _).quietly fun _ => .pure _) s hs

theorem resolveIdentifier_tells {name : String} (hk : ctx.tree.kind? i = some (.identifier name)) :
    Tells ctx resolve table i sc (ctx.findings i (.identifier name))
      (resolveIdentifier ctx resolve i sc.scope name) := by
  refine .get_bind fun s hs => ?_
  rw [hs]
  split
  · exact .answer (by simp [Context.findings]) _ _
  · rename_i id hid
    refine Tells.last (.get_bind fun s' _ => ?_) fun _ => .pure _
    exact (symbolTypeWithin_tells hkeeps _ (.meant hk hid)).mono (List.sublist_cons_self _ _)

/-! ## Every kind of node -/

theorem resolveKind_tells {kind : NodeKind} (hk : ctx.tree.kind? i = some kind)
    (hkind : kind.isDeclaration = false) :
    Tells ctx resolve table i sc (ctx.findings i kind)
      (resolveKind ctx resolve i sc expected kind) := by
  have hc : ∀ c ∈ kind.children, ctx.tree.Child i c := fun c => (Tree.child_of_kind hk).mpr
  cases kind with
  | identifier name => exact resolveIdentifier_tells hkeeps hk
  | literal value => exact .pure _
  | collection elements => exact resolveCollection_tells hkeeps hc
  | conditional condition thenBranch elseBranch => exact resolveConditional_tells hkeeps hc
  | invocation callee arguments trailing => exact resolveInvocation_tells hkeeps hc
  | memberAccess object member =>
    exact resolveMember_tells hkeeps (hc object (by simp [NodeKind.children])) member
  | lambda params body => exact resolveLambda_tells hkeeps hc sc.inner
  | typeTest operand target =>
    exact resolveTypeTest_tells hkeeps (hc operand (by simp [NodeKind.children]))
      (hc target (by simp [NodeKind.children]))
  | conjunction left right =>
    exact resolveConjunction_tells hkeeps (hc left (by simp [NodeKind.children]))
      (hc right (by simp [NodeKind.children]))
  | block statements => exact (resolveBlock_tells hkeeps hc).quietly fun _ => .pure _
  | declaration name isConst ascription initializer => simp [NodeKind.isDeclaration] at hkind
  | assignment target value =>
    exact resolveAssignment_tells hkeeps (hc target (by simp [NodeKind.children]))
      (hc value (by simp [NodeKind.children]))
  | typeRef name args => exact resolveTypeRef_tells hkeeps name hc

end Functions

/-! ## A whole node -/

/-- How a node comes by its type, with what it tells. A declaration is in progress meanwhile. -/
inductive Reported (ctx : Context) (resolve : Resolver) (i : NodeIndex) (sc : NodeScopes)
    (kind : NodeKind) : List ReportSite → Session → Session → Prop
  | plain {told : List ReportSite} {s s' : Session} (hkind : kind.isDeclaration = false)
      (h : Row ctx resolve s.table i sc told s s') : Reported ctx resolve i sc kind told s s'
  | declaration {told : List ReportSite} {s s' : Session} (hkind : kind.isDeclaration = true)
      (h : Row ctx resolve s.table i sc told (s.begun i) s') (ty : Ty) :
      Reported ctx resolve i sc kind told s (s'.ended i ty)

theorem resolveKind_reported {kind : NodeKind} (hkeeps : KeepsTable resolve)
    (hk : ctx.tree.kind? i = some kind) (s : Session) :
    (resolveKind ctx resolve i sc expected kind).After s fun _ s' =>
      ∃ told, told.Sublist (ctx.findings i kind) ∧ Reported ctx resolve i sc kind told s s' := by
  cases hkind : kind.isDeclaration with
  | false =>
    obtain ⟨-, told, hpart, hrow⟩ := resolveKind_tells hkeeps hk hkind s rfl
    exact ⟨told, hpart, .plain hkind hrow⟩
  | true =>
    cases kind with
    | declaration name isConst ascription initializer =>
      unfold resolveKind resolveDeclaration beginDeclaration endDeclaration
      simp only [after_bind, after_modify, after_get]
      have hc : ∀ c ∈ ascription.toList ++ [initializer], ctx.tree.Child i c := fun c =>
        (Tree.child_of_kind hk).mpr
      have htells : Tells ctx resolve s.table i sc _ _ :=
        resolveInitializer_tells hkeeps isConst hc
      refine (htells (s.begun i) rfl).mono ?_
      rintro ty s1 ⟨-, told, hpart, hrow⟩
      have hreported := Reported.declaration hkind hrow ty
      unfold Session.ended at hreported
      split
      · rename_i id hid
        simp only [hid] at hreported
        exact ⟨told, hpart, hreported⟩
      · rename_i hnone
        simp only [hnone] at hreported
        exact ⟨told, hpart, hreported⟩
    | _ => simp [NodeKind.isDeclaration] at hkind

end ScriptTyping
