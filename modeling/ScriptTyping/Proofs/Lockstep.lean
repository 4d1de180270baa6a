import ScriptTyping.CheckResult
import ScriptTyping.Proofs.Run

/-!
# Two runs in lockstep

Two resolutions of one tree, which may differ in what is expected of a node and in how deep they may
go, and of which the first has made some extra findings. As long as nothing of that has a say, every
function of the second phase gives the same results in both and leaves the same sessions, up to
those findings.
-/

namespace ScriptTyping

open Check

variable {α β : Type} {ctx ctx' : Context} {s s' s'' : Session}

/-- Nothing is taken back: scopes stay, and a limit that is exceeded stays so. -/
structure Session.Before (s s' : Session) : Prop where
  scopes : ∀ n, s'.nodes.scopes? n = s.nodes.scopes? n
  limit : s.depthExceeded = true → s'.depthExceeded = true

namespace Session.Before

theorem refl (s : Session) : s.Before s := ⟨fun _ => rfl, fun h => h⟩

theorem trans (h : s.Before s') (h' : s'.Before s'') : s.Before s'' :=
  ⟨fun n => (h'.scopes n).trans (h.scopes n), fun hs => h'.limit (h.limit hs)⟩

theorem of_same (hnodes : s'.nodes = s.nodes) (hlimit : s'.depthExceeded = s.depthExceeded) :
    s.Before s' :=
  ⟨fun n => by rw [hnodes], fun h => hlimit.trans h⟩

theorem recorded (s : Session) (i : NodeIndex) (ty : Ty) (binding : Binding) :
    s.Before { s with nodes := (s.nodes.record? i ty binding).getD s.nodes } := by
  refine ⟨fun n => ?_, fun h => h⟩
  simp only [NodeStates.record?]
  split
  · rename_i scopes hwired
    rw [Option.getD_some]
    by_cases hin : i = n
    · subst hin
      simp only [NodeStates.scopes?, NodeStates.get?_set_self hwired, hwired]
      rfl
    · exact NodeStates.scopes?_set_of_ne _ hin _
  · rfl

end Session.Before

/-- What two runs have to do with each other. `valid` is asked of a session of the first run, and
holds earlier if it holds later. -/
structure Pairing (ctx : Context) where
  valid : Session → Prop
  /-- The types that the two runs may expect of one node. -/
  expects : Option Ty → Option Ty → Prop
  /-- Findings of the first run alone. -/
  extra : List Diagnostic
  earlier : ∀ {s s' : Session}, s.Before s' → valid s' → valid s
  same : ∀ e, expects e e
  bind : ∀ {e e'} (f : Ty → Option Ty), expects e e' → expects (e.bind f) (e'.bind f)
  /-- Only a lambda makes anything of what is expected of it. -/
  lambda : ∀ {s : Session} {i : NodeIndex} {e e'}, valid s → ctx.tree.isLambda i = true →
    s.nodes.scopes? i ≠ none → expects e e' → e = e'

/-- The sessions differ in the extra findings only. -/
def Pairing.Linked (p : Pairing ctx) (s s' : Session) : Prop :=
  ∃ before after, s.diagnostics = before ++ p.extra ++ after ∧
    s' = { s with diagnostics := before ++ after }

theorem Pairing.linked_iff_eq {p : Pairing ctx} (hextra : p.extra = []) :
    p.Linked s s' ↔ s' = s := by
  constructor
  · rintro ⟨before, after, hfound, rfl⟩
    rw [hextra, List.append_nil] at hfound
    rw [← hfound]
  · rintro rfl
    exact ⟨s'.diagnostics, [], by rw [hextra]; simp, by simp⟩

/-- From linked sessions both computations come to linked sessions with one result, if the first
ends in a valid session. -/
structure Lockstep (p : Pairing ctx) (m m' : Check α) : Prop where
  before : ∀ s : Session, s.Before (m s).2
  step : ∀ {s s' : Session}, p.Linked s s' → p.valid (m s).2 →
    (m' s').1 = (m s).1 ∧ p.Linked (m s).2 (m' s').2

namespace Lockstep

variable {p : Pairing ctx} {m m' n n' : Check α}

theorem pure (a : α) : Lockstep p (pure a) (pure a) := ⟨.refl, fun h _ => ⟨rfl, h⟩⟩

theorem bind {f f' : α → Check β} (hm : Lockstep p m m') (hf : ∀ a, Lockstep p (f a) (f' a)) :
    Lockstep p (m >>= f) (m' >>= f') := by
  refine ⟨fun s => (hm.before s).trans ((hf _).before _), fun {s s'} hlinked hvalid => ?_⟩
  have hmiddle : p.valid (m s).2 := p.earlier ((hf (m s).1).before (m s).2) hvalid
  obtain ⟨hresult, hlinked'⟩ := hm.step hlinked hmiddle
  change (f' (m' s').1 (m' s').2).1 = (f (m s).1 (m s).2).1 ∧
    p.Linked (f (m s).1 (m s).2).2 (f' (m' s').1 (m' s').2).2
  rw [hresult]
  exact (hf (m s).1).step hlinked' hvalid

theorem get_bind_valid {f f' : Session → Check β} (hbefore : ∀ s : Session, s.Before (f s s).2)
    (hf : ∀ s found, p.valid s → Lockstep p (f s) (f' { s with diagnostics := found })) :
    Lockstep p (MonadState.get >>= f) (MonadState.get >>= f') := by
  refine ⟨hbefore, fun {s s'} hlinked hvalid => ?_⟩
  obtain ⟨before, after, hfound, rfl⟩ := hlinked
  exact (hf s (before ++ after) (p.earlier (hbefore s) hvalid)).step
    ⟨before, after, hfound, rfl⟩ hvalid

theorem get_bind {f f' : Session → Check β}
    (hf : ∀ s found, Lockstep p (f s) (f' { s with diagnostics := found })) :
    Lockstep p (MonadState.get >>= f) (MonadState.get >>= f') :=
  get_bind_valid (fun s => (hf s []).before s) fun s found _ => hf s found

theorem ite {c : Prop} [Decidable c] (hm : Lockstep p m m') (hn : Lockstep p n n') :
    Lockstep p (if c then m else n) (if c then m' else n') := by
  split
  · exact hm
  · exact hn

theorem modify {f : Session → Session} (hbefore : ∀ s : Session, s.Before (f s))
    (hfound : ∀ s found, f { s with diagnostics := found } = { f s with diagnostics := found })
    (hsame : ∀ s, (f s).diagnostics = s.diagnostics) :
    Lockstep p (modify f : Check Unit) (modify f : Check Unit) := by
  refine ⟨hbefore, ?_⟩
  rintro s - ⟨before, after, hdiagnostics, rfl⟩ -
  exact ⟨rfl, before, after, (hsame s).trans hdiagnostics, hfound s _⟩

theorem report (span : Span) (message : Message) (args : List String) :
    Lockstep p (Check.report span message args) (Check.report span message args) := by
  refine ⟨fun s => .of_same rfl rfl, ?_⟩
  rintro s - ⟨before, after, hdiagnostics, rfl⟩ -
  refine ⟨rfl, before, after ++ [.ofMessage span message args], ?_, ?_⟩
  · change s.diagnostics ++ [.ofMessage span message args] = _
    rw [hdiagnostics, List.append_assoc]
  · change { s with diagnostics := (before ++ after) ++ [Diagnostic.ofMessage span message args] } = _
    rw [List.append_assoc]
    rfl

theorem reportAt (i : NodeIndex) (message : Message) (args : List String) :
    Lockstep p (Check.reportAt ctx i message args) (Check.reportAt ctx i message args) :=
  report _ message args

theorem setSymbolType (id : SymbolId) (ty : Ty) :
    Lockstep p (Check.setSymbolType id ty) (Check.setSymbolType id ty) :=
  modify (fun _ => .of_same rfl rfl) (fun _ _ => rfl) fun _ => rfl

theorem record (i : NodeIndex) (ty : Ty) (binding : Binding) :
    Lockstep p (Check.record i ty binding) (Check.record i ty binding) :=
  modify (fun s => .recorded s i ty binding) (fun _ _ => rfl) fun _ => rfl

theorem mapM {f f' : α → Check β} (hf : ∀ a, Lockstep p (f a) (f' a)) (xs : List α) :
    Lockstep p (xs.mapM f) (xs.mapM f') := by
  induction xs with
  | nil => exact pure []
  | cons x xs ih =>
    rw [List.mapM_cons, List.mapM_cons]
    exact (hf x).bind fun y => ih.bind fun ys => pure _

theorem forM {f f' : α → Check Unit} (hf : ∀ a, Lockstep p (f a) (f' a)) (xs : List α) :
    Lockstep p (xs.forM f) (xs.forM f') := by
  induction xs with
  | nil => exact pure ()
  | cons x xs ih => exact (hf x).bind fun _ => ih

end Lockstep

open Lockstep

variable {p : Pairing ctx} {resolve resolve' : Resolver} {e e' : Option Ty} {i : NodeIndex}

theorem checkAssignable_lockstep (i : NodeIndex) (source target : Ty) :
    Lockstep p (checkAssignable ctx i source target) (checkAssignable ctx i source target) :=
  .ite (.pure ()) (.reportAt i _ _)

theorem boundSymbol?_found (s : Session) (found : List Diagnostic) (i : NodeIndex) :
    boundSymbol? { s with diagnostics := found } i = boundSymbol? s i :=
  rfl

/-- The resolvers are in lockstep on every node, whatever the runs may expect of it. -/
def Follows (p : Pairing ctx) (resolve resolve' : Resolver) : Prop :=
  ∀ i e e', p.expects e e' → Lockstep p (resolve i e) (resolve' i e')

section Functions

variable (hfollows : Follows p resolve resolve')

include hfollows

theorem Follows.visit (i : NodeIndex) (e : Option Ty) : Lockstep p (resolve i e) (resolve' i e) :=
  hfollows i e e (p.same e)

/-! ## Simple expressions and statements -/

theorem resolveCondition_lockstep (condition : NodeIndex) :
    Lockstep p (resolveCondition ctx resolve condition) (resolveCondition ctx resolve' condition) :=
  (hfollows.visit condition _).bind fun _ => .ite (.pure ()) (.reportAt condition _ _)

theorem resolveCollection_lockstep (elements : List NodeIndex) (he : p.expects e e') :
    Lockstep p (resolveCollection resolve elements e) (resolveCollection resolve' elements e') :=
  (Lockstep.mapM (fun i => hfollows i _ _ (p.bind _ he)) elements).bind fun _ => .pure _

theorem resolveConditional_lockstep (condition thenBranch : NodeIndex)
    (elseBranch : Option NodeIndex) (he : p.expects e e') :
    Lockstep p (resolveConditional ctx resolve condition thenBranch elseBranch e)
      (resolveConditional ctx resolve' condition thenBranch elseBranch e') := by
  refine (resolveCondition_lockstep hfollows condition).bind fun _ =>
    (hfollows thenBranch e e' he).bind fun thenTy => ?_
  cases elseBranch with
  | none => exact .pure _
  | some elseBranch => exact (hfollows elseBranch e e' he).bind fun _ => .pure _

theorem resolveConjunction_lockstep (left right : NodeIndex) :
    Lockstep p (resolveConjunction ctx resolve left right)
      (resolveConjunction ctx resolve' left right) :=
  (resolveCondition_lockstep hfollows left).bind fun _ =>
    (resolveCondition_lockstep hfollows right).bind fun _ => .pure _

theorem resolveTypeTest_lockstep (operand target : NodeIndex) :
    Lockstep p (resolveTypeTest ctx resolve operand target)
      (resolveTypeTest ctx resolve' operand target) := by
  refine (hfollows.visit operand none).bind fun _ => (hfollows.visit target none).bind
    fun asserted => .get_bind fun s found => ?_
  dsimp only
  rw [boundSymbol?_found s found]
  cases boundSymbol? s operand with
  | none => exact .pure _
  | some id => exact .ite ((Lockstep.reportAt operand _ _).bind fun _ => .pure _) (.pure _)

theorem resolveBlock_lockstep (statements : List NodeIndex) (he : p.expects e e') :
    Lockstep p (resolveBlock ctx resolve e statements)
      (resolveBlock ctx resolve' e' statements) := by
  induction statements with
  | nil => exact .pure _
  | cons c rest ih =>
    cases rest with
    | nil => exact (hfollows c e e' he).bind fun _ => .pure _
    | cons _ _ => exact (hfollows.visit c none).bind fun _ => ih

theorem resolveInitializer_lockstep (isConst : Bool) (ascription : Option NodeIndex)
    (initializer : NodeIndex) :
    Lockstep p (resolveInitializer ctx resolve isConst ascription initializer)
      (resolveInitializer ctx resolve' isConst ascription initializer) := by
  cases ascription with
  | none => exact (hfollows.visit initializer none).bind fun _ => .pure _
  | some ascription =>
    exact (hfollows.visit ascription none).bind fun ascribed =>
      (hfollows.visit initializer (some ascribed)).bind fun ty =>
        (checkAssignable_lockstep initializer ty ascribed).bind fun _ => .pure _

theorem resolveDeclaration_lockstep (i : NodeIndex) (isConst : Bool)
    (ascription : Option NodeIndex) (initializer : NodeIndex) :
    Lockstep p (resolveDeclaration ctx resolve i isConst ascription initializer)
      (resolveDeclaration ctx resolve' i isConst ascription initializer) := by
  have hbegin : Lockstep p (beginDeclaration i) (beginDeclaration i) :=
    .modify (fun _ => .of_same rfl rfl) (fun _ _ => rfl) fun _ => rfl
  have hend : Lockstep p (endDeclaration i) (endDeclaration i) :=
    .modify (fun _ => .of_same rfl rfl) (fun _ _ => rfl) fun _ => rfl
  refine hbegin.bind fun _ => (resolveInitializer_lockstep hfollows isConst ascription
    initializer).bind fun ty => hend.bind fun _ => .get_bind fun s found => ?_
  dsimp only
  cases s.declared.get? i with
  | none => exact .pure _
  | some id => exact (Lockstep.setSymbolType id ty).bind fun _ => .pure _

theorem resolveAssignment_lockstep (target value : NodeIndex) :
    Lockstep p (resolveAssignment ctx resolve target value)
      (resolveAssignment ctx resolve' target value) := by
  unfold resolveAssignment
  split
  · exact (hfollows.visit target none).bind fun _ => (hfollows.visit value none).bind fun _ =>
      (Lockstep.reportAt target _ _).bind fun _ => .pure _
  · refine (hfollows.visit target none).bind fun targetTy => .get_bind fun s found => ?_
    rw [boundSymbol?_found s found]
    cases boundSymbol? s target with
    | none => exact (hfollows.visit value none).bind fun _ => .pure _
    | some id =>
      refine .ite ?_ ?_
      · exact (Lockstep.reportAt target _ _).bind fun _ =>
          (hfollows.visit value (some targetTy)).bind fun _ => .pure _
      · exact (hfollows.visit value (some targetTy)).bind fun valueTy =>
          (checkAssignable_lockstep value valueTy targetTy).bind fun _ => .pure _

theorem resolveTypeRef_lockstep (i : NodeIndex) (name : String) (args : List NodeIndex) :
    Lockstep p (resolveTypeRef ctx resolve i name args)
      (resolveTypeRef ctx resolve' i name args) := by
  refine (Lockstep.mapM (fun arg => hfollows.visit arg none) args).bind fun types => ?_
  split
  · exact (Lockstep.reportAt i _ _).bind fun _ => .pure _
  · refine .ite (.ite ?_ ?_) (.ite (.pure _) ?_)
    · exact (Lockstep.reportAt i _ _).bind fun _ => .pure _
    · exact (Lockstep.reportAt i _ _).bind fun _ => .pure _
    · split
      · exact .pure _
      · exact .pure _

/-! ## Calls, member reads and lambdas -/

theorem resolveArguments_lockstep (order : List Argument) (inference : Inference)
    (types : List Ty) :
    Lockstep p (resolveArguments ctx resolve order inference types)
      (resolveArguments ctx resolve' order inference types) := by
  induction order generalizing inference types with
  | nil => exact .pure _
  | cons a rest ih => exact (hfollows.visit a.node _).bind fun ty => ih _ _

theorem resolveUnmatched_lockstep (arguments : List NodeIndex) (params : List (String × Ty)) :
    Lockstep p (resolveUnmatched resolve arguments params)
      (resolveUnmatched resolve' arguments params) := by
  induction arguments generalizing params with
  | nil => exact .pure _
  | cons a rest ih => exact (hfollows.visit a _).bind fun _ => ih _

theorem resolveCall_lockstep (callee : Ty) (params : List (String × Ty))
    (arguments : List NodeIndex) :
    Lockstep p (resolveCall ctx resolve callee params arguments)
      (resolveCall ctx resolve' callee params arguments) := by
  refine (resolveArguments_lockstep hfollows _ _ _).bind fun ⟨inference, types⟩ => ?_
  dsimp only
  split
  · refine (Lockstep.forM (fun x => ?_) _).bind fun _ => .pure _
    exact .ite (.pure ()) (.reportAt _ _ _)
  · exact .pure _

theorem resolveInvocation_lockstep (i callee : NodeIndex) (arguments : List NodeIndex) :
    Lockstep p (resolveInvocation ctx resolve i callee arguments)
      (resolveInvocation ctx resolve' i callee arguments) := by
  refine (hfollows.visit callee none).bind fun calleeTy => ?_
  split
  · refine .ite (resolveCall_lockstep hfollows _ _ arguments) ?_
    exact (Lockstep.reportAt i _ _).bind fun _ =>
      (resolveUnmatched_lockstep hfollows arguments _).bind fun _ => .pure _
  · dsimp only
    refine .ite ?_ ?_
    · exact (Lockstep.reportAt callee _ _).bind fun _ =>
        (resolveUnmatched_lockstep hfollows arguments _).bind fun _ => .pure _
    · exact (resolveUnmatched_lockstep hfollows arguments _).bind fun _ => .pure _

theorem resolveMember_lockstep (i object : NodeIndex) (member : String) :
    Lockstep p (resolveMember ctx resolve i object member)
      (resolveMember ctx resolve' i object member) := by
  refine (hfollows.visit object none).bind fun objectTy => .ite (.pure _) ?_
  split
  · exact (Lockstep.reportAt i _ _).bind fun _ => .pure _
  · exact .pure _
  · exact (Lockstep.reportAt i _ _).bind fun _ => .pure _

theorem parameterType_lockstep (param : LambdaParam) (wanted : Option (String × Ty)) :
    Lockstep p (parameterType resolve param wanted) (parameterType resolve' param wanted) := by
  unfold parameterType
  split
  · exact hfollows.visit _ none
  · exact .pure _
  · exact (Lockstep.report _ _ _).bind fun _ => .pure _

theorem resolveParams_lockstep (params : List (LambdaParam × SymbolId))
    (wanted : List (String × Ty)) :
    Lockstep p (resolveParams resolve params wanted) (resolveParams resolve' params wanted) := by
  induction params generalizing wanted with
  | nil => exact .pure _
  | cons q rest ih =>
    obtain ⟨param, id⟩ := q
    exact (parameterType_lockstep hfollows param _).bind fun ty =>
      (Lockstep.setSymbolType id ty).bind fun _ => (ih _).bind fun _ => .pure _

theorem resolveLambda_lockstep (inner : Option ScopeId) (params : List LambdaParam)
    (body : NodeIndex) (e : Option Ty) :
    Lockstep p (resolveLambda ctx resolve inner params body e)
      (resolveLambda ctx resolve' inner params body e) := by
  refine .get_bind fun s found => ?_
  refine Lockstep.bind ?_ fun found => (hfollows.visit body _).bind fun _ => .pure _
  unfold resolveLambdaParams
  refine .ite ?_ ?_
  · dsimp only
    split
    · exact (Lockstep.setSymbolType _ _).bind fun _ => .pure _
    · exact .pure _
  · exact (resolveParams_lockstep hfollows _ _).bind fun _ => .pure _

/-! ## Identifiers -/

theorem guardType_lockstep (guard : NodeIndex) :
    Lockstep p (guardType ctx resolve guard) (guardType ctx resolve' guard) := by
  unfold guardType
  split
  · exact hfollows.visit _ none
  · exact .pure _

theorem symbolTypeWithin_lockstep (i : NodeIndex) (links : Nat) (id : SymbolId) :
    Lockstep p (symbolTypeWithin ctx resolve i links id)
      (symbolTypeWithin ctx resolve' i links id) := by
  induction links generalizing id with
  | zero => exact .pure _
  | succ links ih =>
    unfold symbolTypeWithin
    refine .get_bind fun s found => ?_
    dsimp only
    split
    · exact .pure _
    · split
      · exact .pure _
      · exact .pure _
      · refine .ite ((Lockstep.reportAt i _ _).bind fun _ => .pure _) ?_
        exact (hfollows.visit _ none).bind fun _ => .get_bind fun _ _ => .pure _
      · exact (Lockstep.reportAt i _ _).bind fun _ =>
          (Lockstep.setSymbolType id _).bind fun _ => .pure _
      · exact (ih _).bind fun declared => (guardType_lockstep hfollows _).bind fun asserted =>
          (Lockstep.setSymbolType id _).bind fun _ => .pure _

theorem resolveIdentifier_lockstep (i : NodeIndex) (scope : ScopeId) (name : String) :
    Lockstep p (resolveIdentifier ctx resolve i scope name)
      (resolveIdentifier ctx resolve' i scope name) := by
  refine .get_bind fun s found => ?_
  dsimp only
  split
  · exact (Lockstep.reportAt i _ _).bind fun _ => .pure _
  · refine Lockstep.bind (.get_bind fun s' found' => ?_) fun _ => .pure _
    exact symbolTypeWithin_lockstep hfollows i _ _

/-! ## Every kind of node -/

/-- Whatever the kind, unless it is a lambda that the runs expect different types of. -/
theorem resolveKind_lockstep {scopes : NodeScopes} {kind : NodeKind} (he : p.expects e e')
    (hlambda : kind.isLambda = true → e = e') :
    Lockstep p (resolveKind ctx resolve i scopes e kind)
      (resolveKind ctx resolve' i scopes e' kind) := by
  cases kind with
  | identifier name => exact resolveIdentifier_lockstep hfollows i _ name
  | literal value => exact .pure _
  | collection elements => exact resolveCollection_lockstep hfollows elements he
  | conditional condition thenBranch elseBranch =>
    exact resolveConditional_lockstep hfollows condition thenBranch elseBranch he
  | invocation callee arguments trailing =>
    exact resolveInvocation_lockstep hfollows i callee (arguments ++ trailing.toList)
  | memberAccess object member => exact resolveMember_lockstep hfollows i object member
  | lambda params body =>
    rw [← hlambda rfl]
    exact resolveLambda_lockstep hfollows scopes.inner params body e
  | typeTest operand target => exact resolveTypeTest_lockstep hfollows operand target
  | conjunction left right => exact resolveConjunction_lockstep hfollows left right
  | block statements => exact (resolveBlock_lockstep hfollows statements he).bind fun _ => .pure _
  | declaration name isConst ascription initializer =>
    exact resolveDeclaration_lockstep hfollows i isConst ascription initializer
  | assignment target value => exact resolveAssignment_lockstep hfollows target value
  | typeRef name args => exact resolveTypeRef_lockstep hfollows i name args

end Functions

/-! ## A whole resolution -/

theorem reportTooDeep_lockstep (i : NodeIndex) :
    Lockstep p (reportTooDeep ctx i) (reportTooDeep ctx i) := by
  refine .get_bind fun s found => .ite ?_ (.pure _)
  have hexceed : Lockstep p (modify fun s : Session => { s with depthExceeded := true })
      (modify fun s : Session => { s with depthExceeded := true }) :=
    .modify (fun _ => ⟨fun _ => rfl, fun _ => rfl⟩) (fun _ _ => rfl) fun _ => rfl
  exact hexceed.bind fun _ => .reportAt i _ _

theorem reportTooDeep_exceeds (i : NodeIndex) (s : Session) :
    (reportTooDeep ctx i).After s fun _ s' => s'.depthExceeded = true := by
  unfold reportTooDeep
  simp only [after_bind, after_get]
  split
  · exact rfl
  · rename_i hexceeded
    simpa using hexceeded

/-- At the limit a run exceeds it. If that is not valid, the other run may do anything. -/
theorem cut_lockstep (hlimit : ∀ s, p.valid s → s.depthExceeded = false) (i : NodeIndex)
    (m : Check Ty) :
    Lockstep p (do reportTooDeep ctx i; record i .unknown .none; pure .unknown) m := by
  refine ⟨?_, fun {s s'} _ hvalid => ?_⟩
  · exact ((reportTooDeep_lockstep (p := p) i).bind fun _ =>
      (Lockstep.record i _ _).bind fun _ => .pure Ty.unknown).before
  · have hexceeded : (reportTooDeep ctx i s).2.depthExceeded = true := reportTooDeep_exceeds i s
    have hquiet := hlimit _ hvalid
    change (reportTooDeep ctx i s).2.depthExceeded = false at hquiet
    rw [hexceeded] at hquiet
    cases hquiet

theorem resolveNode_lockstep {below below' : Nat}
    (hfollows : Follows p (resolveWithin ctx below) (resolveWithin ctx below'))
    (scopes : NodeScopes) (kind : NodeKind) (he : p.expects e e')
    (hlambda : kind.isLambda = true → e = e') :
    Lockstep p
      (do
        enter
        let (ty, binding) ← resolveKind ctx (resolveWithin ctx below) i scopes e kind
        leave
        record i ty binding
        pure ty)
      (do
        enter
        let (ty, binding) ← resolveKind ctx (resolveWithin ctx below') i scopes e' kind
        leave
        record i ty binding
        pure ty) := by
  have henter : Lockstep p enter enter :=
    .modify (fun _ => .of_same rfl rfl) (fun _ _ => rfl) fun _ => rfl
  have hleave : Lockstep p leave leave :=
    .modify (fun _ => .of_same rfl rfl) (fun _ _ => rfl) fun _ => rfl
  exact henter.bind fun _ => (resolveKind_lockstep hfollows he hlambda).bind fun ⟨ty, binding⟩ =>
    hleave.bind fun _ => (Lockstep.record i ty binding).bind fun _ => .pure _

/-- The second run may go deeper if the first one stays within its limit. -/
theorem resolveWithin_lockstep {levels levels' : Nat} (hle : levels ≤ levels')
    (hlimit : levels = levels' ∨ ∀ s, p.valid s → s.depthExceeded = false) :
    Follows p (resolveWithin ctx levels) (resolveWithin ctx levels') := by
  induction levels generalizing levels' with
  | zero =>
    intro i e e' he
    unfold resolveWithin
    refine .get_bind fun s found => ?_
    dsimp only
    split
    · exact .pure _
    · split
      · rcases hlimit with rfl | hlimit
        · exact (reportTooDeep_lockstep i).bind fun _ =>
            (Lockstep.record i _ _).bind fun _ => .pure _
        · exact cut_lockstep hlimit i _
      · exact .pure _
  | succ below ih =>
    intro i e e' he
    obtain ⟨below', rfl⟩ : ∃ n, levels' = n + 1 := ⟨levels' - 1, by omega⟩
    have hfollows : Follows p (resolveWithin ctx below) (resolveWithin ctx below') :=
      ih (by omega) (hlimit.imp_left (by omega))
    unfold resolveWithin
    refine .get_bind_valid (fun s => ?_) fun s found hvalid => ?_
    · cases s.nodes.type? i with
      | some ty => exact .refl s
      | none =>
        cases s.nodes.scopes? i with
        | none => exact .refl s
        | some scopes =>
          cases ctx.tree.get? i with
          | none => exact .refl s
          | some node =>
            exact (resolveNode_lockstep hfollows scopes node.kind (p.same e) fun _ => rfl).before s
    · dsimp only
      split
      · exact .pure _
      · split
        · rename_i scopes node hscopes hnode
          refine resolveNode_lockstep hfollows scopes node.kind he fun hkind => ?_
          refine p.lambda (i := i) hvalid ?_ (by simp [hscopes]) he
          simp [Tree.isLambda, Tree.kind?, hnode, hkind]
        · exact .pure _

theorem resolveRest_lockstep (hfollows : Follows p (Check.resolve ctx) (Check.resolve ctx'))
    (rest : List NodeIndex) : Lockstep p (resolveRest ctx rest) (resolveRest ctx' rest) := by
  induction rest with
  | nil => exact .pure _
  | cons i rest ih =>
    unfold resolveRest
    refine .get_bind fun s found => ?_
    dsimp only
    split
    · exact (hfollows.visit i none).bind fun _ => ih
    · exact ih

end ScriptTyping
