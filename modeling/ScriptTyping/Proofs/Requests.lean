import ScriptTyping.Proofs.Moves

/-!
# Requests

The functions of the second phase do nothing with their resolver but ask it, and nothing that an
answer leaves is taken back. So the calls that a computation makes can be told from outside: they
are those on whose answer its outcome hangs.
-/

namespace ScriptTyping

open Check

variable {α β : Type} {ctx : Context} {resolve resolve' : Resolver} {s : Session}

/-- A call of a resolver. -/
structure Request where
  node : NodeIndex
  expected : Option Ty
  session : Session

def Request.answer (c : Request) (resolve : Resolver) : Ty × Session :=
  resolve c.node c.expected c.session

open Classical in
/-- The resolver with another answer to one call. -/
noncomputable def Check.answering (resolve : Resolver) (c : Request) (answer : Ty × Session) :
    Resolver :=
  fun k expected s => if Request.mk k expected s = c then answer else resolve k expected s

theorem answering_self (resolve : Resolver) (c : Request) (answer : Ty × Session) :
    c.answer (answering resolve c answer) = answer :=
  if_pos rfl

theorem answering_of_ne {c : Request} {answer : Ty × Session} {k : NodeIndex}
    {expected : Option Ty} (h : Request.mk k expected s ≠ c) :
    answering resolve c answer k expected s = resolve k expected s :=
  if_neg h

/-- The computation calls its resolver so: some other answer changes its outcome. These calls are
all that counts of the resolver, see `Asking.determined`. -/
def Makes (m : Resolver → Check α) (resolve : Resolver) (s : Session) (c : Request) : Prop :=
  ∃ answer, m (answering resolve c answer) s ≠ m resolve s

/-! ## Computations that ask -/

/-- The computation does nothing with its resolver but ask it, and leaves table and depth alone. -/
inductive Asking : {α : Type} → (Resolver → Check α) → Prop
  | own {α : Type} {m : Check α} (h : ∀ s, (m s).2.table = s.table ∧ (m s).2.depth = s.depth) :
      Asking fun _ => m
  | request (k : NodeIndex) (expected : Option Ty) : Asking fun resolve => resolve k expected
  | bind {α β : Type} {m : Resolver → Check α} {f : Resolver → α → Check β} (hm : Asking m)
      (hf : ∀ a, Asking fun resolve => f resolve a) : Asking fun resolve => m resolve >>= f resolve

namespace Asking

variable {m n : Resolver → Check α}

theorem pure (a : α) : Asking fun _ => (pure a : Check α) := .own fun _ => ⟨rfl, rfl⟩

theorem get_bind {f : Resolver → Session → Check β} (hf : ∀ s, Asking fun resolve => f resolve s) :
    Asking fun resolve => MonadState.get >>= f resolve :=
  .bind (.own fun _ => ⟨rfl, rfl⟩) hf

theorem ite {p : Prop} [Decidable p] (hm : Asking m) (hn : Asking n) :
    Asking fun resolve => if p then m resolve else n resolve := by
  split
  · exact hm
  · exact hn

theorem mapM {f : Resolver → α → Check β} (hf : ∀ a, Asking fun resolve => f resolve a)
    (xs : List α) : Asking fun resolve => xs.mapM (f resolve) := by
  induction xs with
  | nil => exact pure []
  | cons x xs ih =>
    simp only [List.mapM_cons]
    exact (hf x).bind fun y => ih.bind fun ys => pure _

theorem forM {f : α → Check Unit} (hf : ∀ a, Asking fun _ => f a) (xs : List α) :
    Asking fun _ => xs.forM f := by
  induction xs with
  | nil => exact pure ()
  | cons x xs ih => exact (hf x).bind fun _ => ih

theorem report (span : Span) (message : Message) (args : List String) :
    Asking fun _ => Check.report span message args :=
  .own fun _ => ⟨rfl, rfl⟩

theorem reportAt (i : NodeIndex) (message : Message) (args : List String) :
    Asking fun _ => Check.reportAt ctx i message args :=
  report _ message args

theorem setSymbolType (id : SymbolId) (ty : Ty) : Asking fun _ => Check.setSymbolType id ty :=
  .own fun _ => ⟨rfl, rfl⟩

theorem checkAssignable (i : NodeIndex) (source target : Ty) :
    Asking fun _ => Check.checkAssignable ctx i source target :=
  .ite (.pure ()) (reportAt i _ _)

end Asking

/-! ## Simple expressions and statements -/

theorem resolveCondition_asking (condition : NodeIndex) :
    Asking fun resolve => resolveCondition ctx resolve condition :=
  (Asking.request condition _).bind fun _ => .ite (.pure ()) (.reportAt condition _ _)

theorem resolveCollection_asking (elements : List NodeIndex) (e : Option Ty) :
    Asking fun resolve => resolveCollection resolve elements e :=
  (Asking.mapM (fun i => .request i _) elements).bind fun _ => .pure _

theorem resolveConditional_asking (condition thenBranch : NodeIndex)
    (elseBranch : Option NodeIndex) (e : Option Ty) :
    Asking fun resolve => resolveConditional ctx resolve condition thenBranch elseBranch e := by
  refine (resolveCondition_asking condition).bind fun _ =>
    (Asking.request thenBranch e).bind fun thenTy => ?_
  cases elseBranch with
  | none => exact .pure _
  | some elseBranch => exact (Asking.request elseBranch e).bind fun _ => .pure _

theorem resolveConjunction_asking (left right : NodeIndex) :
    Asking fun resolve => resolveConjunction ctx resolve left right :=
  (resolveCondition_asking left).bind fun _ =>
    (resolveCondition_asking right).bind fun _ => .pure _

theorem resolveTypeTest_asking (operand target : NodeIndex) :
    Asking fun resolve => resolveTypeTest ctx resolve operand target := by
  refine (Asking.request operand none).bind fun _ =>
    (Asking.request target none).bind fun asserted => .get_bind fun s => ?_
  split
  · exact .ite ((Asking.reportAt operand _ _).bind fun _ => .pure _) (.pure _)
  · exact .pure _

theorem resolveBlock_asking (e : Option Ty) (statements : List NodeIndex) :
    Asking fun resolve => resolveBlock ctx resolve e statements := by
  induction statements with
  | nil => exact .pure _
  | cons c rest ih =>
    cases rest with
    | nil => exact (Asking.request c e).bind fun _ => .pure _
    | cons _ _ => exact (Asking.request c none).bind fun _ => ih

theorem resolveInitializer_asking (isConst : Bool) (ascription : Option NodeIndex)
    (initializer : NodeIndex) :
    Asking fun resolve => resolveInitializer ctx resolve isConst ascription initializer := by
  cases ascription with
  | none => exact (Asking.request initializer none).bind fun _ => .pure _
  | some ascription =>
    exact (Asking.request ascription none).bind fun ascribed =>
      (Asking.request initializer (some ascribed)).bind fun ty =>
        (Asking.checkAssignable initializer ty ascribed).bind fun _ => .pure _

theorem resolveDeclaration_asking (i : NodeIndex) (isConst : Bool)
    (ascription : Option NodeIndex) (initializer : NodeIndex) :
    Asking fun resolve => resolveDeclaration ctx resolve i isConst ascription initializer := by
  have hbegin : Asking fun _ => beginDeclaration i := .own fun _ => ⟨rfl, rfl⟩
  have hend : Asking fun _ => endDeclaration i := .own fun _ => ⟨rfl, rfl⟩
  refine hbegin.bind fun _ => (resolveInitializer_asking isConst ascription
    initializer).bind fun ty => hend.bind fun _ => .get_bind fun s => ?_
  split
  · exact (Asking.setSymbolType _ ty).bind fun _ => .pure _
  · exact .pure _

theorem resolveAssignment_asking (target value : NodeIndex) :
    Asking fun resolve => resolveAssignment ctx resolve target value := by
  unfold resolveAssignment
  split
  · exact (Asking.request target none).bind fun _ => (Asking.request value none).bind fun _ =>
      (Asking.reportAt target _ _).bind fun _ => .pure _
  · refine (Asking.request target none).bind fun targetTy => .get_bind fun s => ?_
    split
    · exact (Asking.request value none).bind fun _ => .pure _
    · refine .ite ?_ ?_
      · exact (Asking.reportAt target _ _).bind fun _ =>
          (Asking.request value (some targetTy)).bind fun _ => .pure _
      · exact (Asking.request value (some targetTy)).bind fun valueTy =>
          (Asking.checkAssignable value valueTy targetTy).bind fun _ => .pure _

theorem resolveTypeRef_asking (i : NodeIndex) (name : String) (args : List NodeIndex) :
    Asking fun resolve => resolveTypeRef ctx resolve i name args := by
  refine (Asking.mapM (fun arg => .request arg none) args).bind fun types => ?_
  split
  · exact (Asking.reportAt i _ _).bind fun _ => .pure _
  · refine .ite (.ite ?_ ?_) (.ite (.pure _) ?_)
    · exact (Asking.reportAt i _ _).bind fun _ => .pure _
    · exact (Asking.reportAt i _ _).bind fun _ => .pure _
    · split
      · exact .pure _
      · exact .pure _

/-! ## Calls, member reads and lambdas -/

theorem resolveArguments_asking (order : List Argument) (inference : Inference)
    (types : List Ty) :
    Asking fun resolve => resolveArguments ctx resolve order inference types := by
  induction order generalizing inference types with
  | nil => exact .pure _
  | cons a rest ih => exact (Asking.request a.node _).bind fun ty => ih _ _

theorem resolveUnmatched_asking (arguments : List NodeIndex) (params : List (String × Ty)) :
    Asking fun resolve => resolveUnmatched resolve arguments params := by
  induction arguments generalizing params with
  | nil => exact .pure _
  | cons a rest ih => exact (Asking.request a _).bind fun _ => ih _

theorem resolveCall_asking (callee : Ty) (params : List (String × Ty))
    (arguments : List NodeIndex) :
    Asking fun resolve => resolveCall ctx resolve callee params arguments := by
  refine (resolveArguments_asking _ _ _).bind fun ⟨inference, types⟩ => ?_
  dsimp only
  split
  · refine (Asking.forM (fun x => ?_) _).bind fun _ => .pure _
    exact .ite (.pure ()) (.reportAt _ _ _)
  · exact .pure _

theorem resolveInvocation_asking (i callee : NodeIndex) (arguments : List NodeIndex) :
    Asking fun resolve => resolveInvocation ctx resolve i callee arguments := by
  refine (Asking.request callee none).bind fun calleeTy => ?_
  split
  · refine .ite (resolveCall_asking _ _ arguments) ?_
    exact (Asking.reportAt i _ _).bind fun _ =>
      (resolveUnmatched_asking arguments _).bind fun _ => .pure _
  · dsimp only
    refine .ite ?_ ?_
    · exact (Asking.reportAt callee _ _).bind fun _ =>
        (resolveUnmatched_asking arguments _).bind fun _ => .pure _
    · exact (resolveUnmatched_asking arguments _).bind fun _ => .pure _

theorem resolveMember_asking (i object : NodeIndex) (member : String) :
    Asking fun resolve => resolveMember ctx resolve i object member := by
  refine (Asking.request object none).bind fun objectTy => .ite (.pure _) ?_
  split
  · exact (Asking.reportAt i _ _).bind fun _ => .pure _
  · exact .pure _
  · exact (Asking.reportAt i _ _).bind fun _ => .pure _

theorem parameterType_asking (param : LambdaParam) (wanted : Option (String × Ty)) :
    Asking fun resolve => parameterType resolve param wanted := by
  unfold parameterType
  split
  · exact .request _ none
  · exact .pure _
  · exact (Asking.report _ _ _).bind fun _ => .pure _

theorem resolveParams_asking (params : List (LambdaParam × SymbolId))
    (wanted : List (String × Ty)) :
    Asking fun resolve => resolveParams resolve params wanted := by
  induction params generalizing wanted with
  | nil => exact .pure _
  | cons q rest ih =>
    obtain ⟨param, id⟩ := q
    exact (parameterType_asking param _).bind fun ty =>
      (Asking.setSymbolType id ty).bind fun _ => (ih _).bind fun _ => .pure _

theorem resolveLambda_asking (inner : Option ScopeId) (params : List LambdaParam)
    (body : NodeIndex) (e : Option Ty) :
    Asking fun resolve => resolveLambda ctx resolve inner params body e := by
  refine .get_bind fun s => .bind ?_ fun found => (Asking.request body _).bind fun _ => .pure _
  unfold resolveLambdaParams
  refine .ite ?_ ?_
  · split
    · exact (Asking.setSymbolType _ _).bind fun _ => .pure _
    · exact .pure _
  · exact (resolveParams_asking _ _).bind fun _ => .pure _

/-! ## Identifiers -/

theorem guardType_asking (guard : NodeIndex) :
    Asking fun resolve => guardType ctx resolve guard := by
  unfold guardType
  split
  · exact .request _ none
  · exact .pure _

theorem symbolTypeWithin_asking (i : NodeIndex) (links : Nat) (id : SymbolId) :
    Asking fun resolve => symbolTypeWithin ctx resolve i links id := by
  induction links generalizing id with
  | zero => exact .pure _
  | succ links ih =>
    unfold symbolTypeWithin
    refine .get_bind fun s => ?_
    split
    · exact .pure _
    · split
      · exact .pure _
      · exact .pure _
      · refine .ite ((Asking.reportAt i _ _).bind fun _ => .pure _) ?_
        exact (Asking.request _ none).bind fun _ => .get_bind fun _ => .pure _
      · exact (Asking.reportAt i _ _).bind fun _ =>
          (Asking.setSymbolType id _).bind fun _ => .pure _
      · exact (ih _).bind fun declared => (guardType_asking _).bind fun asserted =>
          (Asking.setSymbolType id _).bind fun _ => .pure _

theorem resolveIdentifier_asking (i : NodeIndex) (scope : ScopeId) (name : String) :
    Asking fun resolve => resolveIdentifier ctx resolve i scope name := by
  refine .get_bind fun s => ?_
  split
  · exact (Asking.reportAt i _ _).bind fun _ => .pure _
  · refine Asking.bind (.get_bind fun s' => ?_) fun _ => .pure _
    exact symbolTypeWithin_asking i _ _

/-! ## Every kind of node -/

theorem resolveKind_asking (i : NodeIndex) (scopes : NodeScopes) (e : Option Ty)
    (kind : NodeKind) :
    Asking fun resolve => resolveKind ctx resolve i scopes e kind := by
  cases kind with
  | identifier name => exact resolveIdentifier_asking i _ name
  | literal value => exact .pure _
  | collection elements => exact resolveCollection_asking elements e
  | conditional condition thenBranch elseBranch =>
    exact resolveConditional_asking condition thenBranch elseBranch e
  | invocation callee arguments trailing =>
    exact resolveInvocation_asking i callee (arguments ++ trailing.toList)
  | memberAccess object member => exact resolveMember_asking i object member
  | lambda params body => exact resolveLambda_asking scopes.inner params body e
  | typeTest operand target => exact resolveTypeTest_asking operand target
  | conjunction left right => exact resolveConjunction_asking left right
  | block statements => exact (resolveBlock_asking e statements).bind fun _ => .pure _
  | declaration name isConst ascription initializer =>
    exact resolveDeclaration_asking i isConst ascription initializer
  | assignment target value => exact resolveAssignment_asking target value
  | typeRef name args => exact resolveTypeRef_asking i name args

/-! ## What the answers decide -/

/-- Whether a session is off shows in the table and the depth, which only the resolver changes. -/
def Insensitive (off : Session → Prop) : Prop :=
  ∀ {s s' : Session}, s'.table = s.table → s'.depth = s.depth → off s → off s'

namespace Asking

variable {m : Resolver → Check α}

theorem stays (h : Asking m) (off : Session → Prop) (hoff : Insensitive off)
    (hstays : ∀ k e t, off t → off (resolve k e t).2) (hs : off s) : off (m resolve s).2 := by
  induction h generalizing s with
  | own h => exact hoff (h s).1 (h s).2 hs
  | request k e => exact hstays k e s hs
  | bind _ _ ihm ihf => exact ihf _ (ihm hs)

/-- Two resolvers have the same effect if the second one does the same as the first wherever that
does not come to a session that is off, and the computation does not end in one. -/
theorem same (h : Asking m) (off : Session → Prop) (hoff : Insensitive off)
    (hstays : ∀ k e t, off t → off (resolve k e t).2)
    (hsame : ∀ k e t, ¬ off (resolve k e t).2 → resolve' k e t = resolve k e t)
    (hs : ¬ off (m resolve s).2) : m resolve' s = m resolve s := by
  induction h generalizing s with
  | own => rfl
  | request k e => exact hsame k e s hs
  | @bind _ _ m f hm hf ihm ihf =>
    have hmiddle : ¬ off (m resolve s).2 := fun hmiddle => hs ((hf _).stays off hoff hstays hmiddle)
    change f resolve' (m resolve' s).1 (m resolve' s).2 = f resolve (m resolve s).1 (m resolve s).2
    rw [ihm hmiddle]
    exact ihf _ hs

end Asking

/-- Whatever table an answer to the call leaves, it is left in the end. -/
def Marks (m : Resolver → Check α) (resolve : Resolver) (s : Session) (c : Request)
    (table : SymbolTable) : Prop :=
  ∀ answer : Ty × Session, answer.2.table = table →
    (m (answering resolve c answer) s).2.table = table

/-- Another table. -/
def SymbolTable.other (t : SymbolTable) : SymbolTable :=
  { t with symbols := t.symbols.push ⟨"", .host .unknown true⟩ }

theorem SymbolTable.other_ne (t : SymbolTable) : t.other ≠ t := by
  intro h
  have hsize := congrArg (·.symbols.size) h
  simp [other] at hsize

theorem answering_table {c : Request} {answer : Ty × Session} (hkeeps : KeepsTable resolve)
    (k : NodeIndex) (e : Option Ty) (h : s.table = answer.2.table) :
    (answering resolve c answer k e s).2.table = answer.2.table := by
  unfold answering
  split
  · rfl
  · exact (hkeeps k e s).trans h

namespace Asking

variable {m : Resolver → Check α}

/-- Where two resolvers make a difference, they differ on a call that leaves a mark. -/
theorem marks (h : Asking m) (hkeeps : KeepsTable resolve) (table : SymbolTable)
    (hne : m resolve' s ≠ m resolve s) :
    ∃ c : Request, c.answer resolve' ≠ c.answer resolve ∧ Marks m resolve s c table := by
  induction h generalizing s resolve' with
  | own => exact absurd rfl hne
  | request k e =>
    refine ⟨⟨k, e, s⟩, hne, fun answer htable => ?_⟩
    exact (congrArg (·.2.table) (answering_self resolve ⟨k, e, s⟩ answer)).trans htable
  | @bind _ _ m f hm hf ihm ihf =>
    -- What comes after a mark keeps it.
    have hafter : ∀ {c : Request} {answer : Ty × Session} {a s}, answer.2.table = table →
        s.table = table → (f (answering resolve c answer) a s).2.table = table := by
      rintro c answer a s rfl hs
      exact (hf a).stays (fun t => t.table = answer.2.table)
        (fun htable _ hoff => htable.trans hoff) (fun k e t => answering_table hkeeps k e) hs
    by_cases hsame : m resolve' s = m resolve s
    · have hne' : f resolve' (m resolve s).1 (m resolve s).2 ≠
          f resolve (m resolve s).1 (m resolve s).2 := by
        intro heq
        refine hne ?_
        change f resolve' (m resolve' s).1 (m resolve' s).2 = _
        rw [hsame]
        exact heq
      obtain ⟨c, hc, hmarks⟩ := ihf _ hne'
      refine ⟨c, hc, fun answer htable => ?_⟩
      change (f _ (m (answering resolve c answer) s).1 (m (answering resolve c answer) s).2).2.table
        = table
      by_cases hfirst : m (answering resolve c answer) s = m resolve s
      · rw [hfirst]
        exact hmarks answer htable
      · obtain ⟨c', hc', hmarks'⟩ := ihm hfirst
        have heq : c' = c := by
          by_contra hne
          exact hc' (answering_of_ne hne)
        exact hafter htable (heq ▸ hmarks' answer htable)
    · obtain ⟨c, hc, hmarks⟩ := ihm hsame
      exact ⟨c, hc, fun answer htable => hafter htable (hmarks answer htable)⟩

theorem table (h : Asking m) (hkeeps : KeepsTable resolve) (s : Session) :
    (m resolve s).2.table = s.table :=
  h.stays (fun t => t.table = s.table) (fun htable _ hoff => htable.trans hoff)
    (fun k e t ht => (hkeeps k e t).trans ht) rfl

/-- The calls that a computation makes say it all: with a resolver that gives them the same answers
the outcome is the same. -/
theorem determined (h : Asking m) (hkeeps : KeepsTable resolve)
    (hagree : ∀ c, Makes m resolve s c → c.answer resolve' = c.answer resolve) :
    m resolve' s = m resolve s := by
  by_contra hne
  obtain ⟨c, hc, hmarks⟩ := h.marks hkeeps s.table.other hne
  refine hc (hagree c ⟨(.unknown, { s with table := s.table.other }), fun heq => ?_⟩)
  have hmark := hmarks (.unknown, { s with table := s.table.other }) rfl
  rw [heq, h.table hkeeps s] at hmark
  exact s.table.other_ne hmark.symm

end Asking

/-! ## The calls of a check -/

/-- The session one level deeper. -/
def Session.entered (s : Session) : Session := { s with depth := s.depth + 1 }

namespace Check

variable {i : NodeIndex} {expected : Option Ty}

theorem get_bind_apply (f : Session → Check β) (s : Session) :
    (MonadState.get >>= f : Check β) s = f s s := rfl

/-- The resolution of a node below the depth limit, with the resolver left open. -/
def resolveNode (ctx : Context) (resolve : Resolver) (i : NodeIndex) (expected : Option Ty) :
    Check Ty := do
  let s ← get
  match s.nodes.type? i with
  | some ty => pure ty
  | none =>
    match s.nodes.scopes? i, ctx.tree.get? i with
    | some scopes, some node =>
      enter
      let (ty, binding) ← resolveKind ctx resolve i scopes expected node.kind
      leave
      record i ty binding
      pure ty
    | _, _ => pure .unknown

theorem resolveWithin_succ (ctx : Context) (below : Nat) :
    resolveWithin ctx (below + 1) = resolveNode ctx (resolveWithin ctx below) := by
  funext i expected
  rw [resolveWithin]
  rfl

theorem resolveNode_apply {sc : NodeScopes} {kind : NodeKind} (hnone : s.nodes.type? i = none)
    (hsc : s.nodes.scopes? i = some sc) (hk : ctx.tree.kind? i = some kind) :
    resolveNode ctx resolve i expected s =
      let found := resolveKind ctx resolve i sc expected kind s.entered
      (do leave; record i found.1.1 found.1.2; pure found.1.1 : Check Ty) found.2 := by
  obtain ⟨node, hnode, rfl⟩ := Option.map_eq_some_iff.mp hk
  unfold resolveNode
  rw [get_bind_apply]
  simp only [hnone, hsc, hnode]
  rfl

theorem resolveNode_congr
    (h : ∀ sc kind, s.nodes.type? i = none → s.nodes.scopes? i = some sc →
      ctx.tree.kind? i = some kind →
      resolveKind ctx resolve' i sc expected kind s.entered =
        resolveKind ctx resolve i sc expected kind s.entered) :
    resolveNode ctx resolve' i expected s = resolveNode ctx resolve i expected s := by
  cases hnone : s.nodes.type? i with
  | some ty => simp only [resolveNode, get_bind_apply, hnone]
  | none =>
    cases hsc : s.nodes.scopes? i with
    | none => simp only [resolveNode, get_bind_apply, hnone, hsc]
    | some sc =>
      cases hnode : ctx.tree.get? i with
      | none => simp only [resolveNode, get_bind_apply, hnone, hsc, hnode]
      | some node =>
        have hk : ctx.tree.kind? i = some node.kind := by simp [Tree.kind?, hnode]
        rw [resolveNode_apply hnone hsc hk, resolveNode_apply hnone hsc hk, h _ _ hnone hsc hk]

/-- The end of a check, with the resolver left open. -/
def resolveRestBy (resolve : Resolver) : List NodeIndex → Check Unit
  | [] => pure ()
  | i :: rest => do
    if ((← get).nodes.resolution? i).isNone then
      let _ ← resolve i none
    resolveRestBy resolve rest

theorem resolveRest_eq (ctx : Context) (rest : List NodeIndex) :
    resolveRest ctx rest = resolveRestBy (Check.resolve ctx) rest := by
  induction rest with
  | nil => rfl
  | cons i rest ih =>
    unfold resolveRest resolveRestBy
    rw [ih]

theorem resolveRestBy_cons (resolve : Resolver) (i : NodeIndex) (rest : List NodeIndex)
    (s : Session) :
    resolveRestBy resolve (i :: rest) s =
      if (s.nodes.resolution? i).isNone then resolveRestBy resolve rest (resolve i none s).2
      else resolveRestBy resolve rest s := by
  rw [resolveRestBy, get_bind_apply]
  split <;> rfl

/-- The second phase, with the resolver left open. -/
def resolveTree (ctx : Context) (resolve : Resolver) (root : NodeIndex) (expected : Option Ty) :
    Check Ty := do
  let ty ← resolve root expected
  match expected with
  | some target => checkAssignable ctx root ty target
  | none => pure ()
  resolveRestBy resolve (ctx.tree.descendants root)
  pure ty

theorem resolveTree_apply (resolve : Resolver) (root : NodeIndex) (expected : Option Ty)
    (s : Session) :
    resolveTree ctx resolve root expected s =
      let found := resolve root expected s
      let s' := match expected with
        | some target => (checkAssignable ctx root found.1 target found.2).2
        | none => found.2
      (found.1, (resolveRestBy resolve (ctx.tree.descendants root) s').2) := by
  cases expected <;> rfl

theorem checkRoot_eq (ctx : Context) (root : NodeIndex) (scope : ScopeId) (expected : Option Ty) :
    checkRoot ctx root scope expected =
      (do wire ctx root scope; resolveTree ctx (Check.resolve ctx) root expected) := by
  unfold checkRoot resolveTree
  rewrite [resolveRest_eq]
  rfl

/-- The session after the first phase. -/
def wired (ctx : Context) (table : SymbolTable) (root : NodeIndex) (scope : ScopeId) : Session :=
  (wire ctx root scope (.start ctx table)).2

end Check

theorem resolveRestBy_asking (rest : List NodeIndex) :
    Asking fun resolve => resolveRestBy resolve rest := by
  induction rest with
  | nil => exact .pure ()
  | cons i rest ih => exact .get_bind fun s => .ite ((Asking.request i none).bind fun _ => ih) ih

theorem resolveTree_asking (root : NodeIndex) (expected : Option Ty) :
    Asking fun resolve => resolveTree ctx resolve root expected := by
  refine (Asking.request root expected).bind fun ty => ?_
  cases expected with
  | none => exact (resolveRestBy_asking _).bind fun _ => .pure ty
  | some target =>
    exact (Asking.checkAssignable root ty target).bind fun _ =>
      (resolveRestBy_asking _).bind fun _ => .pure ty

theorem Makes.of_node {i : NodeIndex} {expected : Option Ty} {c : Request}
    (h : Makes (fun resolve => resolveNode ctx resolve i expected) resolve s c) :
    s.nodes.type? i = none ∧ ∃ sc kind, s.nodes.scopes? i = some sc ∧
      ctx.tree.kind? i = some kind ∧
      Makes (fun resolve => resolveKind ctx resolve i sc expected kind) resolve s.entered c := by
  obtain ⟨answer, hne⟩ := h
  have hkind := mt resolveNode_congr hne
  simp only [Classical.not_forall] at hkind
  obtain ⟨sc, kind, hnone, hsc, hk, hne⟩ := hkind
  exact ⟨hnone, sc, kind, hsc, hk, answer, hne⟩

/-- The calls of the resolver that a check makes, itself or within one of them, each with the levels
that are left below the depth limit. -/
inductive Called (ctx : Context) (table : SymbolTable) (root : NodeIndex) (scope : ScopeId)
    (wanted : Option Ty) : Nat → Request → Prop
  | outer {c : Request} (h : Makes (fun resolve => resolveTree ctx resolve root wanted)
      (Check.resolve ctx) (wired ctx table root scope) c) :
      Called ctx table root scope wanted ctx.options.maxResolutionDepth c
  | nested {below : Nat} {c c' : Request} (hc : Called ctx table root scope wanted (below + 1) c)
      (h : Makes (fun resolve => resolveNode ctx resolve c.node c.expected)
        (resolveWithin ctx below) c.session c') : Called ctx table root scope wanted below c'

/-- The call of the root is one of them, since the check ends with its type. -/
theorem Called.root (ctx : Context) (table : SymbolTable) (root : NodeIndex) (scope : ScopeId)
    (wanted : Option Ty) : Called ctx table root scope wanted ctx.options.maxResolutionDepth
      ⟨root, wanted, wired ctx table root scope⟩ := by
  have hother : ∀ ty : Ty, ∃ other, other ≠ ty := by
    intro ty
    cases ty with
    | unknown => exact ⟨Ty.union [], by simp⟩
    | _ => exact ⟨.unknown, by simp⟩
  obtain ⟨ty, hne⟩ := hother (Check.resolve ctx root wanted (wired ctx table root scope)).1
  refine .outer ⟨(ty, wired ctx table root scope), fun heq => hne ?_⟩
  have hsame := congrArg Prod.fst heq
  simp only [resolveTree_apply] at hsame
  have hanswer := answering_self (Check.resolve ctx) ⟨root, wanted, wired ctx table root scope⟩
    (ty, wired ctx table root scope)
  exact (congrArg Prod.fst hanswer).symm.trans hsame

/-! ## Nothing else has a say -/

theorem resolveNode_determined {i : NodeIndex} {expected : Option Ty} (hkeeps : KeepsTable resolve)
    (hagree : ∀ c, Makes (fun resolve => resolveNode ctx resolve i expected) resolve s c →
      c.answer resolve' = c.answer resolve) :
    resolveNode ctx resolve' i expected s = resolveNode ctx resolve i expected s := by
  refine resolveNode_congr fun sc kind hnone hsc hk => ?_
  by_contra hne
  have hasking : Asking fun resolve => resolveKind ctx resolve i sc expected kind :=
    resolveKind_asking i sc expected kind
  obtain ⟨c, hc, hmarks⟩ := hasking.marks hkeeps s.table.other hne
  refine hc (hagree c ⟨(.unknown, { s with table := s.table.other }), fun heq => ?_⟩)
  have htable : ∀ r : Resolver, (resolveNode ctx r i expected s).2.table =
      (resolveKind ctx r i sc expected kind s.entered).2.table := by
    intro r
    rw [resolveNode_apply hnone hsc hk]
    rfl
  have hmark := hmarks (.unknown, { s with table := s.table.other }) rfl
  have hkept := hasking.table hkeeps s.entered
  have hsame := congrArg (·.2.table) heq
  simp only [htable] at hsame
  exact s.table.other_ne (hmark.symm.trans (hsame.trans hkept))

theorem resolveTree_determined {root : NodeIndex} {wanted : Option Ty}
    (hagree : ∀ c,
      Makes (fun resolve => resolveTree ctx resolve root wanted) (Check.resolve ctx) s c →
        c.answer resolve' = c.answer (Check.resolve ctx)) :
    resolveTree ctx resolve' root wanted s = resolveTree ctx (Check.resolve ctx) root wanted s :=
  (resolveTree_asking root wanted).determined (keepsTable_resolveWithin ctx _) hagree

end ScriptTyping
