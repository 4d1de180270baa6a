import ScriptTyping.CheckResult
import ScriptTyping.Proofs.Ancestry
import ScriptTyping.Proofs.Run
import ScriptTyping.Proofs.TypingRule

/-!
# Moves of the second phase

A node is resolved in a row of moves: it visits its children, reports, gives symbols their types,
and an identifier may ask for a declaration or for the target of a guard. Whatever every move keeps
is kept by a whole resolution, so nothing else has to look into the functions of this phase.
-/

namespace ScriptTyping

open Check

variable {α β : Type} {ctx : Context} {resolve : Resolver} {table : SymbolTable} {i c : NodeIndex}
  {sc : NodeScopes} {cs cs' : List NodeIndex} {s s' s'' : Session} {expected : Option Ty}

/-- The symbols that an identifier reads in a scope: the one that it means, and behind a narrowed
symbol its original. -/
inductive Reads (ctx : Context) (table : SymbolTable) (i : NodeIndex) (scope : ScopeId) :
    SymbolId → Prop
  | meant {name : String} {id : SymbolId} (hk : ctx.tree.kind? i = some (.identifier name))
      (h : table.resolve scope name = some id) : Reads ctx table i scope id
  | original {id o : SymbolId} {name : String} {g : NodeIndex} (h : Reads ctx table i scope id)
      (hsym : table.symbol? id = some ⟨name, .narrowed o g⟩) : Reads ctx table i scope o

/-- The symbols that the scope opened by a node lists. -/
def listed (table : SymbolTable) (sc : NodeScopes) : List SymbolId :=
  ((sc.inner.bind table.scope?).map (·.symbols)).getD []

/-- The children that a node visits: a lambda that has fewer symbols than parameters leaves out
some ascriptions. -/
def visited (table : SymbolTable) (sc : NodeScopes) : NodeKind → List NodeIndex
  | .lambda params body => (params.zip (listed table sc)).filterMap (·.1.ascription) ++ [body]
  | kind => kind.children

theorem visited_subset {kind : NodeKind} (hc : c ∈ visited table sc kind) : c ∈ kind.children := by
  cases kind with
  | lambda params body =>
    simp only [visited, NodeKind.children, List.mem_append, List.mem_filterMap] at hc ⊢
    refine hc.imp_left ?_
    rintro ⟨⟨param, id⟩, hmem, hascription⟩
    exact ⟨param, (List.of_mem_zip hmem).1, hascription⟩
  | _ => exact hc

/-- One move for the node `i`, with the children that it visits. -/
inductive Move (ctx : Context) (resolve : Resolver) (table : SymbolTable) (i : NodeIndex)
    (sc : NodeScopes) : List NodeIndex → Session → Session → Prop
  | visit (s : Session) (c : NodeIndex) (expected : Option Ty) :
      Move ctx resolve table i sc [c] s (resolve c expected s).2
  | report (s : Session) (found : Diagnostic) (hcycle : found.code ≠ Message.circularReference.code)
      (hdeep : found.code ≠ Message.expressionTooDeep.code) :
      Move ctx resolve table i sc [] s { s with diagnostics := s.diagnostics ++ [found] }
  | circular (s : Session) {id : SymbolId} {name : String} {d : NodeIndex} {isConst : Bool}
      (hread : Reads ctx table i sc.scope id)
      (hsym : table.symbol? id = some ⟨name, .source d isConst⟩) (hd : d ∈ s.inProgress)
      (found : Diagnostic) (hcode : found.code = Message.circularReference.code) :
      Move ctx resolve table i sc [] s { s with diagnostics := s.diagnostics ++ [found] }
  | demand (s : Session) {id : SymbolId} {name : String} {d : NodeIndex} {isConst : Bool}
      (hread : Reads ctx table i sc.scope id)
      (hsym : table.symbol? id = some ⟨name, .source d isConst⟩) (hd : d ∉ s.inProgress) :
      Move ctx resolve table i sc [] s (resolve d none s).2
  | target (s : Session) {id o : SymbolId} {name : String} {g operand target : NodeIndex}
      (hread : Reads ctx table i sc.scope id)
      (hsym : table.symbol? id = some ⟨name, .narrowed o g⟩)
      (hk : ctx.tree.kind? g = some (.typeTest operand target)) :
      Move ctx resolve table i sc [] s (resolve target none s).2
  | symbol (s : Session) {id : SymbolId} {name : String} {origin : Origin}
      (hread : Reads ctx table i sc.scope id) (hsym : table.symbol? id = some ⟨name, origin⟩)
      (horigin : ∀ d isConst, origin ≠ .source d isConst) (ty : Ty) :
      Move ctx resolve table i sc [] s { s with symbolTypes := s.symbolTypes.insert id ty }
  | parameter (s : Session) {id : SymbolId} {params : List LambdaParam} {body : NodeIndex}
      (hk : ctx.tree.kind? i = some (.lambda params body)) (hid : id ∈ listed table sc) (ty : Ty) :
      Move ctx resolve table i sc [] s { s with symbolTypes := s.symbolTypes.insert id ty }

/-- A row of moves, with the children visited in this order. -/
inductive Work (ctx : Context) (resolve : Resolver) (table : SymbolTable) (i : NodeIndex)
    (sc : NodeScopes) : List NodeIndex → Session → Session → Prop
  | start (s : Session) : Work ctx resolve table i sc [] s s
  | move {cs cs' : List NodeIndex} {s s' s'' : Session} (h : Work ctx resolve table i sc cs s s')
      (hm : Move ctx resolve table i sc cs' s' s'') : Work ctx resolve table i sc (cs ++ cs') s s''

theorem Work.trans (h : Work ctx resolve table i sc cs s s')
    (h' : Work ctx resolve table i sc cs' s' s'') :
    Work ctx resolve table i sc (cs ++ cs') s s'' := by
  induction h' with
  | start => simpa using h
  | move _ hm ih =>
    rw [← List.append_assoc]
    exact .move (ih h) hm

theorem Work.single (h : Move ctx resolve table i sc cs s s') :
    Work ctx resolve table i sc cs s s' :=
  .move (.start s) h

/-! ## Computations made of moves -/

/-- The resolver adds no symbols and no scopes. -/
def KeepsTable (resolve : Resolver) : Prop :=
  ∀ k expected s, (resolve k expected s).2.table = s.table

/-- Over the table, the computation is a row of moves that visits `cs` in some order. -/
def Works (ctx : Context) (resolve : Resolver) (table : SymbolTable) (i : NodeIndex)
    (sc : NodeScopes) (cs : List NodeIndex) (m : Check α) : Prop :=
  ∀ s, s.table = table → m.After s fun _ s' => s'.table = table ∧
    ∃ order, order.Perm cs ∧ Work ctx resolve table i sc order s s'

namespace Works

theorem pure (a : α) : Works ctx resolve table i sc [] (pure a : Check α) :=
  fun s hs => ⟨hs, [], .refl _, .start s⟩

theorem bind {m : Check α} {f : α → Check β} (hm : Works ctx resolve table i sc cs m)
    (hf : ∀ a, Works ctx resolve table i sc cs' (f a)) :
    Works ctx resolve table i sc (cs ++ cs') (m >>= f) := by
  intro s hs
  rw [after_bind]
  refine (hm s hs).mono ?_
  rintro a s1 ⟨hs1, order, hperm, hwork⟩
  refine (hf a s1 hs1).mono ?_
  rintro b s2 ⟨hs2, order', hperm', hwork'⟩
  exact ⟨hs2, order ++ order', hperm.append hperm', hwork.trans hwork'⟩

theorem last {m : Check α} {f : α → Check β} (hm : Works ctx resolve table i sc cs m)
    (hf : ∀ a, Works ctx resolve table i sc [] (f a)) :
    Works ctx resolve table i sc cs (m >>= f) := by
  have h := hm.bind hf
  rwa [List.append_nil] at h

theorem get_bind {f : Session → Check β}
    (hf : ∀ s, s.table = table → Works ctx resolve table i sc cs (f s)) :
    Works ctx resolve table i sc cs (MonadState.get >>= f) := by
  intro s hs
  rw [after_bind]
  exact hf s hs s hs

theorem ite {p : Prop} [Decidable p] {m m' : Check α} (hm : Works ctx resolve table i sc cs m)
    (hm' : Works ctx resolve table i sc cs m') :
    Works ctx resolve table i sc cs (if p then m else m') := by
  split
  · exact hm
  · exact hm'

theorem perm {m : Check α} (h : Works ctx resolve table i sc cs m) (hperm : cs.Perm cs') :
    Works ctx resolve table i sc cs' m := by
  intro s hs
  refine (h s hs).mono ?_
  rintro a s1 ⟨hs1, order, horder, hwork⟩
  exact ⟨hs1, order, horder.trans hperm, hwork⟩

theorem visit (hkeeps : KeepsTable resolve) (c : NodeIndex) (expected : Option Ty) :
    Works ctx resolve table i sc [c] (resolve c expected) :=
  fun s hs => ⟨(hkeeps c expected s).trans hs, [c], .refl _, .single (.visit s c expected)⟩

theorem report (span : Span) (m : Message) (args : List String)
    (hcycle : m.code ≠ Message.circularReference.code)
    (hdeep : m.code ≠ Message.expressionTooDeep.code) :
    Works ctx resolve table i sc [] (Check.report span m args) :=
  fun s hs => ⟨hs, [], .refl _, .single (.report s _ hcycle hdeep)⟩

theorem reportAt (n : NodeIndex) (m : Message) (args : List String)
    (hcycle : m.code ≠ Message.circularReference.code)
    (hdeep : m.code ≠ Message.expressionTooDeep.code) :
    Works ctx resolve table i sc [] (Check.reportAt ctx n m args) :=
  report _ m args hcycle hdeep

theorem mapM {f : NodeIndex → Check β} (hf : ∀ c, Works ctx resolve table i sc [c] (f c))
    (cs : List NodeIndex) : Works ctx resolve table i sc cs (cs.mapM f) := by
  induction cs with
  | nil => exact pure []
  | cons c cs ih =>
    rw [List.mapM_cons]
    exact (hf c).bind fun y => ih.last fun ys => pure _

theorem forM {f : α → Check Unit} (hf : ∀ x, Works ctx resolve table i sc [] (f x))
    (xs : List α) : Works ctx resolve table i sc [] (xs.forM f) := by
  induction xs with
  | nil => exact pure ()
  | cons x xs ih => exact (hf x).bind fun _ => ih

end Works

/-! ## Simple expressions and statements -/

section Functions

variable (hkeeps : KeepsTable resolve)

theorem checkAssignable_works (n : NodeIndex) (source target : Ty) :
    Works ctx resolve table i sc [] (checkAssignable ctx n source target) := by
  unfold checkAssignable
  exact .ite (.pure ()) (.reportAt n _ _ (by decide) (by decide))

include hkeeps

theorem resolveCondition_works (condition : NodeIndex) :
    Works ctx resolve table i sc [condition] (resolveCondition ctx resolve condition) := by
  exact (Works.visit hkeeps condition _).last fun ty =>
    .ite (.pure ()) (.reportAt condition _ _ (by decide) (by decide))

theorem resolveCollection_works (elements : List NodeIndex) :
    Works ctx resolve table i sc elements (resolveCollection resolve elements expected) :=
  (Works.mapM (fun c => .visit hkeeps c _) elements).last fun _ => .pure _

theorem resolveConditional_works (condition thenBranch : NodeIndex) (elseBranch : Option NodeIndex) :
    Works ctx resolve table i sc (condition :: thenBranch :: elseBranch.toList)
      (resolveConditional ctx resolve condition thenBranch elseBranch expected) := by
  refine (resolveCondition_works hkeeps condition).bind fun _ =>
    (Works.visit hkeeps thenBranch expected).bind fun thenTy => ?_
  cases elseBranch with
  | none => exact .pure _
  | some elseBranch => exact (Works.visit hkeeps elseBranch expected).last fun _ => .pure _

theorem resolveConjunction_works (left right : NodeIndex) :
    Works ctx resolve table i sc [left, right] (resolveConjunction ctx resolve left right) :=
  (resolveCondition_works hkeeps left).bind fun _ =>
    (resolveCondition_works hkeeps right).last fun _ => .pure _

theorem resolveTypeTest_works (operand target : NodeIndex) :
    Works ctx resolve table i sc [operand, target] (resolveTypeTest ctx resolve operand target) := by
  refine (Works.visit hkeeps operand none).bind fun _ =>
    (Works.visit hkeeps target none).last fun asserted => .get_bind fun s _ => ?_
  dsimp only
  split
  · exact .ite ((Works.reportAt operand _ _ (by decide) (by decide)).last fun _ => .pure _) (.pure _)
  · exact .pure _

theorem resolveBlock_works (statements : List NodeIndex) :
    Works ctx resolve table i sc statements (resolveBlock ctx resolve expected statements) := by
  fun_induction resolveBlock ctx resolve expected statements with
  | case1 => exact .pure _
  | case2 last => exact (Works.visit hkeeps last expected).last fun _ => .pure _
  | case3 c rest _ ih => exact (Works.visit hkeeps c none).bind fun _ => ih

theorem resolveInitializer_works (isConst : Bool) (ascription : Option NodeIndex)
    (initializer : NodeIndex) :
    Works ctx resolve table i sc (ascription.toList ++ [initializer])
      (resolveInitializer ctx resolve isConst ascription initializer) := by
  cases ascription with
  | none => exact (Works.visit hkeeps initializer none).last fun _ => .pure _
  | some ascription =>
    exact (Works.visit hkeeps ascription none).bind fun ascribed =>
      (Works.visit hkeeps initializer (some ascribed)).last fun ty =>
        (checkAssignable_works initializer ty ascribed).last fun _ => .pure _

theorem resolveAssignment_works (target value : NodeIndex) :
    Works ctx resolve table i sc [target, value] (resolveAssignment ctx resolve target value) := by
  unfold resolveAssignment
  split
  · exact (Works.visit hkeeps target none).bind fun _ => (Works.visit hkeeps value none).last
      fun _ => (Works.reportAt target _ _ (by decide) (by decide)).last fun _ => .pure _
  · refine (Works.visit hkeeps target none).bind fun targetTy => .get_bind fun s _ => ?_
    split
    · exact (Works.visit hkeeps value none).last fun _ => .pure _
    · split
      · exact (Works.reportAt target _ _ (by decide) (by decide)).bind fun _ =>
          (Works.visit hkeeps value (some targetTy)).last fun _ => .pure _
      · exact (Works.visit hkeeps value (some targetTy)).last fun valueTy =>
          (checkAssignable_works value valueTy targetTy).last fun _ => .pure _

theorem resolveTypeRef_works (n : NodeIndex) (name : String) (args : List NodeIndex) :
    Works ctx resolve table i sc args (resolveTypeRef ctx resolve n name args) := by
  refine (Works.mapM (fun c => .visit hkeeps c none) args).last fun types => ?_
  split
  · exact (Works.reportAt n _ _ (by decide) (by decide)).last fun _ => .pure _
  · refine .ite ?_ (.ite (.pure _) ?_)
    · exact .ite ((Works.reportAt n _ _ (by decide) (by decide)).last fun _ => .pure _)
        ((Works.reportAt n _ _ (by decide) (by decide)).last fun _ => .pure _)
    · split
      · exact .pure _
      · exact .pure _

/-! ## Calls, member reads and lambdas -/

theorem resolveArguments_works (order : List Argument) (inference : Inference) (types : List Ty) :
    Works ctx resolve table i sc (order.map (·.node))
      (resolveArguments ctx resolve order inference types) := by
  induction order generalizing inference types with
  | nil => exact .pure _
  | cons a rest ih => exact (Works.visit hkeeps a.node _).bind fun ty => ih _ _

theorem resolveUnmatched_works (arguments : List NodeIndex) (params : List (String × Ty)) :
    Works ctx resolve table i sc arguments (resolveUnmatched resolve arguments params) := by
  induction arguments generalizing params with
  | nil => exact .pure _
  | cons a rest ih => exact (Works.visit hkeeps a _).bind fun _ => ih _

omit hkeeps in
theorem resolutionOrder_nodes {arguments : List NodeIndex} {params : List (String × Ty)}
    (h : params.length = arguments.length) :
    ((resolutionOrder ctx (argumentsOf arguments params)).map (·.node)).Perm arguments := by
  have hzip : (arguments.zip params).map (·.1) = arguments := List.map_fst_zip (Nat.le_of_eq h.symm)
  have hperm := (resolutionOrder_perm ctx (argumentsOf arguments params)).map (·.node)
  rwa [map_node_argumentsOf, hzip] at hperm

theorem resolveCall_works {callee : Ty} {params : List (String × Ty)} {arguments : List NodeIndex}
    (h : params.length = arguments.length) :
    Works ctx resolve table i sc arguments
      (resolveCall ctx resolve callee params arguments) := by
  have hperm : ((resolutionOrder ctx (argumentsOf arguments params)).map (·.node)).Perm arguments :=
    resolutionOrder_nodes h
  refine ((resolveArguments_works hkeeps _ _ _).last fun found => ?_).perm hperm
  obtain ⟨inference, types⟩ := found
  dsimp only
  split
  · refine (Works.forM (fun x => ?_) _).last fun _ => .pure _
    exact .ite (.pure ()) (.reportAt _ _ _ (by decide) (by decide))
  · exact .pure _

theorem resolveInvocation_works (n callee : NodeIndex) (arguments : List NodeIndex) :
    Works ctx resolve table i sc (callee :: arguments)
      (resolveInvocation ctx resolve n callee arguments) := by
  refine (Works.visit hkeeps callee none).bind fun calleeTy => ?_
  split
  · split
    · rename_i hlen
      exact resolveCall_works hkeeps hlen
    · exact (Works.reportAt n _ _ (by decide) (by decide)).bind fun _ =>
        (resolveUnmatched_works hkeeps arguments _).last fun _ => .pure _
  · dsimp only
    refine .ite ?_ ((resolveUnmatched_works hkeeps arguments _).last fun _ => .pure _)
    exact (Works.reportAt callee _ _ (by decide) (by decide)).bind fun _ =>
      (resolveUnmatched_works hkeeps arguments _).last fun _ => .pure _

theorem resolveMember_works (n object : NodeIndex) (member : String) :
    Works ctx resolve table i sc [object] (resolveMember ctx resolve n object member) := by
  refine (Works.visit hkeeps object none).last fun objectTy => .ite (.pure _) ?_
  split
  · exact (Works.reportAt n _ _ (by decide) (by decide)).last fun _ => .pure _
  · exact .pure _
  · exact (Works.reportAt n _ _ (by decide) (by decide)).last fun _ => .pure _

theorem parameterType_works (param : LambdaParam) (wanted : Option (String × Ty)) :
    Works ctx resolve table i sc param.ascription.toList (parameterType resolve param wanted) := by
  unfold parameterType
  split
  · rename_i ascription hsome
    rw [hsome]
    exact .visit hkeeps ascription none
  · rename_i hnone
    rw [hnone]
    exact .pure _
  · rename_i hnone
    rw [hnone]
    exact (Works.report _ _ _ (by decide) (by decide)).last fun _ => .pure _

section Lambda

variable {params : List LambdaParam} {body : NodeIndex}
  (hk : ctx.tree.kind? i = some (.lambda params body))

include hk

omit hkeeps in
theorem bindParameter_works {id : SymbolId} (hid : id ∈ listed table sc) (ty : Ty) :
    Works ctx resolve table i sc [] (setSymbolType id ty) :=
  fun s hs => ⟨hs, [], .refl _, .single (.parameter s hk hid ty)⟩

theorem resolveParams_works {params : List (LambdaParam × SymbolId)}
    (hids : ∀ p ∈ params, p.2 ∈ listed table sc) (wanted : List (String × Ty)) :
    Works ctx resolve table i sc (params.filterMap (·.1.ascription))
      (resolveParams resolve params wanted) := by
  induction params generalizing wanted with
  | nil => exact .pure _
  | cons p rest ih =>
    obtain ⟨param, id⟩ := p
    have hrest := ih (fun q hq => hids q (by simp [hq])) wanted.tail
    have h : Works ctx resolve table i sc
        (param.ascription.toList ++ rest.filterMap (·.1.ascription))
        (resolveParams resolve ((param, id) :: rest) wanted) :=
      (parameterType_works hkeeps param wanted.head?).bind fun ty =>
        (bindParameter_works hk (hids (param, id) (by simp)) ty).bind fun _ =>
          hrest.last fun _ => .pure _
    rw [List.filterMap_cons]
    cases hascription : param.ascription <;> simpa [hascription] using h

theorem resolveLambda_works :
    Works ctx resolve table i sc (visited table sc (.lambda params body))
      (resolveLambda ctx resolve sc.inner params body expected) := by
  refine .get_bind fun s hs => ?_
  have hlisted : ((sc.inner.bind s.table.scope?).map (·.symbols)).getD [] = listed table sc := by
    rw [hs]
    rfl
  dsimp only
  rw [hlisted]
  refine Works.bind ?_ fun found => (Works.visit hkeeps body _).last fun _ => .pure _
  unfold resolveLambdaParams
  split
  · rename_i hempty
    rw [List.isEmpty_iff.mp hempty]
    split
    · rename_i id rest _ ty _ hsymbols _
      have hid : id ∈ listed table sc := by simp [hsymbols]
      exact (bindParameter_works hk hid ty).last fun _ => .pure _
    · exact .pure _
  · have hids : ∀ p ∈ params.zip (listed table sc), p.2 ∈ listed table sc := fun p hp =>
      (List.of_mem_zip hp).2
    exact (resolveParams_works hkeeps hk hids _).last fun _ => .pure _

end Lambda

/-! ## Identifiers -/

theorem guardType_works {id o : SymbolId} {name : String} {g : NodeIndex}
    (hread : Reads ctx table i sc.scope id)
    (hsym : table.symbol? id = some ⟨name, .narrowed o g⟩) :
    Works ctx resolve table i sc [] (guardType ctx resolve g) := by
  unfold guardType
  split
  · rename_i operand target hk
    exact fun s hs => ⟨(hkeeps target none s).trans hs, [], .refl _,
      .single (.target s hread hsym hk)⟩
  · exact .pure _

omit hkeeps in
theorem setSymbol_works {id : SymbolId} {name : String} {origin : Origin}
    (hread : Reads ctx table i sc.scope id) (hsym : table.symbol? id = some ⟨name, origin⟩)
    (horigin : ∀ d isConst, origin ≠ .source d isConst) (ty : Ty) :
    Works ctx resolve table i sc [] (setSymbolType id ty) :=
  fun s hs => ⟨hs, [], .refl _, .single (.symbol s hread hsym horigin ty)⟩

theorem symbolTypeWithin_works {id : SymbolId} (links : Nat)
    (hread : Reads ctx table i sc.scope id) :
    Works ctx resolve table i sc [] (symbolTypeWithin ctx resolve i links id) := by
  induction links generalizing id with
  | zero => exact .pure _
  | succ links ih =>
    intro s hs
    unfold symbolTypeWithin
    simp only [after_bind, after_get]
    split
    · exact Works.pure _ s hs
    · rw [hs]
      split
      · exact Works.pure _ s hs
      · exact Works.pure _ s hs
      · rename_i name d isConst hsym
        split
        · rename_i hd
          exact ⟨hs, [], .refl _, .single (.circular s hread hsym (by simpa using hd) _ rfl)⟩
        · rename_i hd
          exact ⟨(hkeeps d none s).trans hs, [], .refl _,
            .single (.demand s hread hsym (by simpa using hd))⟩
      · rename_i name l k hsym
        exact ((Works.reportAt i _ _ (by decide) (by decide)).bind fun _ =>
          (setSymbol_works hread hsym (by simp) _).last fun _ => .pure _) s hs
      · rename_i name o g hsym
        exact ((ih (.original hread hsym)).bind fun declared =>
          (guardType_works hkeeps hread hsym).bind fun asserted =>
            (setSymbol_works hread hsym (by simp) _).last fun _ => .pure _) s hs

theorem resolveIdentifier_works {name : String} (hk : ctx.tree.kind? i = some (.identifier name)) :
    Works ctx resolve table i sc [] (resolveIdentifier ctx resolve i sc.scope name) := by
  refine .get_bind fun s hs => ?_
  rw [hs]
  split
  · exact (Works.reportAt i _ _ (by decide) (by decide)).last fun _ => .pure _
  · rename_i id hid
    refine Works.last (.get_bind fun s' _ => ?_) fun _ => .pure _
    exact symbolTypeWithin_works hkeeps _ (.meant hk hid)

/-! ## Every kind of node -/

theorem resolveKind_works {kind : NodeKind} (hk : ctx.tree.kind? i = some kind)
    (hkind : kind.isDeclaration = false) :
    Works ctx resolve table i sc (visited table sc kind)
      (resolveKind ctx resolve i sc expected kind) := by
  cases kind with
  | identifier name => exact resolveIdentifier_works hkeeps hk
  | literal value => exact .pure _
  | collection elements => exact resolveCollection_works hkeeps elements
  | conditional condition thenBranch elseBranch =>
    exact resolveConditional_works hkeeps condition thenBranch elseBranch
  | invocation callee arguments trailing =>
    exact resolveInvocation_works hkeeps i callee (arguments ++ trailing.toList)
  | memberAccess object member => exact resolveMember_works hkeeps i object member
  | lambda params body => exact resolveLambda_works hkeeps hk
  | typeTest operand target => exact resolveTypeTest_works hkeeps operand target
  | conjunction left right => exact resolveConjunction_works hkeeps left right
  | block statements => exact (resolveBlock_works hkeeps statements).last fun _ => .pure _
  | declaration name isConst ascription initializer => simp [NodeKind.isDeclaration] at hkind
  | assignment target value => exact resolveAssignment_works hkeeps target value
  | typeRef name args => exact resolveTypeRef_works hkeeps i name args

end Functions

/-! ## A whole resolution -/

namespace Session

/-- The declaration is in progress. -/
def begun (s : Session) (i : NodeIndex) : Session :=
  { s with inProgress := s.inProgress.insert i }

/-- The declaration is done, and its symbol has its type. -/
def ended (s : Session) (i : NodeIndex) (ty : Ty) : Session :=
  { s with
    inProgress := s.inProgress.filter (· ≠ i)
    symbolTypes := match s.declared.get? i with
      | some id => s.symbolTypes.insert id ty
      | none => s.symbolTypes }

def recorded (s : Session) (i : NodeIndex) (ty : Ty) (binding : Binding) : Session :=
  { s with nodes := (s.nodes.record? i ty binding).getD s.nodes }

/-- The limit is reported at the node, unless it has been reported before. -/
def tooDeep (ctx : Context) (s : Session) (i : NodeIndex) : Session :=
  if s.depthExceeded then s
  else { s with
    depthExceeded := true
    diagnostics := s.diagnostics ++ [.ofMessage (ctx.tree.span i) .expressionTooDeep []] }

theorem tooDeep_table (ctx : Context) (s : Session) (i : NodeIndex) :
    (s.tooDeep ctx i).table = s.table := by
  unfold tooDeep
  split <;> rfl

end Session

@[simp] theorem Check.after_reportTooDeep (Q : Unit → Session → Prop) :
    (reportTooDeep ctx i).After s Q ↔ Q () (s.tooDeep ctx i) := by
  unfold reportTooDeep Session.tooDeep
  cases hexceeded : s.depthExceeded with
  | true => simp [hexceeded]
  | false =>
    simp only [after_bind, after_get, hexceeded]
    exact Iff.rfl

/-- How the type of a node is found: by its moves, which a declaration makes while it is in
progress. What an identifier asks for depends on what is known, so its moves do not say it all. -/
inductive Resolved (ctx : Context) (resolve : Resolver) (i : NodeIndex) (sc : NodeScopes)
    (kind : NodeKind) : Session → Session → Prop
  | plain {order : List NodeIndex} {s s' : Session} (hkind : kind.isDeclaration = false)
      (horder : order.Perm (visited s.table sc kind))
      (h : Work ctx resolve s.table i sc order s s')
      (hname : ∀ name, kind = .identifier name →
        s' = (resolveIdentifier ctx resolve i sc.scope name s).2) : Resolved ctx resolve i sc kind s s'
  | declaration {order : List NodeIndex} {s s' : Session} (hkind : kind.isDeclaration = true)
      (horder : order.Perm kind.children)
      (h : Work ctx resolve s.table i sc order (s.begun i) s') (ty : Ty) :
      Resolved ctx resolve i sc kind s (s'.ended i ty)

theorem resolveKind_resolved {kind : NodeKind} (hkeeps : KeepsTable resolve)
    (hk : ctx.tree.kind? i = some kind) (s : Session) :
    (resolveKind ctx resolve i sc expected kind).After s fun _ s' =>
      s'.table = s.table ∧ Resolved ctx resolve i sc kind s s' := by
  cases hkind : kind.isDeclaration with
  | false =>
    have hworks : Works ctx resolve s.table i sc (visited s.table sc kind)
        (resolveKind ctx resolve i sc expected kind) := resolveKind_works hkeeps hk hkind
    obtain ⟨htable, order, horder, hwork⟩ := hworks s rfl
    refine ⟨htable, .plain hkind horder hwork ?_⟩
    rintro name rfl
    rfl
  | true =>
    cases kind with
    | declaration name isConst ascription initializer =>
      unfold resolveKind resolveDeclaration beginDeclaration endDeclaration
      simp only [after_bind, after_modify, after_get]
      have hworks : Works ctx resolve s.table i sc (ascription.toList ++ [initializer]) _ :=
        resolveInitializer_works hkeeps isConst ascription initializer
      refine (hworks (s.begun i) rfl).mono ?_
      rintro ty s1 ⟨htable, order, horder, hwork⟩
      have hresolved := Resolved.declaration hkind horder hwork ty
      unfold Session.ended at hresolved
      split
      · rename_i id hid
        simp only [hid] at hresolved
        exact ⟨htable, hresolved⟩
      · rename_i hnone
        simp only [hnone] at hresolved
        exact ⟨htable, hresolved⟩
    | _ => simp [NodeKind.isDeclaration] at hkind

/-- What a call of the resolver does: nothing if the node is recorded or not there, and otherwise
the node is recorded in the end. -/
inductive Call (ctx : Context) : Nat → NodeIndex → Session → Session → Prop
  | done {remaining : Nat} {i : NodeIndex} {s : Session} {ty : Ty} (h : s.nodes.type? i = some ty) :
      Call ctx remaining i s s
  | missing {remaining : Nat} {i : NodeIndex} {s : Session} (hnone : s.nodes.type? i = none)
      (h : s.nodes.scopes? i = none ∨ ctx.tree.get? i = none) : Call ctx remaining i s s
  | limit {i : NodeIndex} {s : Session} (hnone : s.nodes.type? i = none) :
      Call ctx 0 i s ((s.tooDeep ctx i).recorded i .unknown .none)
  | node {below : Nat} {i : NodeIndex} {sc : NodeScopes} {kind : NodeKind} {s s' : Session}
      (hnone : s.nodes.type? i = none) (hsc : s.nodes.scopes? i = some sc)
      (hk : ctx.tree.kind? i = some kind)
      (h : Resolved ctx (resolveWithin ctx below) i sc kind { s with depth := s.depth + 1 } s')
      (ty : Ty) (binding : Binding) :
      Call ctx (below + 1) i s (Session.recorded { s' with depth := s'.depth - 1 } i ty binding)

theorem call_step (remaining : Nat)
    (hbelow : ∀ below, remaining = below + 1 → KeepsTable (resolveWithin ctx below)) (i : NodeIndex)
    (expected : Option Ty) (s : Session) :
    (resolveWithin ctx remaining i expected).After s fun _ s' =>
      s'.table = s.table ∧ Call ctx remaining i s s' := by
  unfold resolveWithin
  simp only [after_bind, after_get]
  split
  · rename_i ty hty
    exact ⟨rfl, .done hty⟩
  · rename_i hnone
    split
    · rename_i sc node hsc hnode
      split
      · simp only [after_bind, after_reportTooDeep, after_pure]
        exact ⟨s.tooDeep_table ctx i, .limit hnone⟩
      · rename_i below
        simp only [after_bind, enter, leave, record, after_modify, after_pure]
        refine (resolveKind_resolved (hbelow below rfl) (Tree.kind_of_get hnode) _).mono ?_
        rintro ⟨ty, binding⟩ s1 ⟨htable, hresolved⟩
        exact ⟨htable, .node hnone hsc (Tree.kind_of_get hnode) hresolved ty binding⟩
    · rename_i hnot
      refine ⟨rfl, .missing hnone ?_⟩
      cases hsc : s.nodes.scopes? i with
      | none => exact Or.inl rfl
      | some sc =>
        cases hnode : ctx.tree.get? i with
        | none => exact Or.inr rfl
        | some node => exact absurd hnode (hnot sc node hsc)

/-- What holds of a resolver if it holds of the one with a level less holds at every depth. -/
theorem resolveWithin_induction {P : Resolver → Prop}
    (h : ∀ remaining, (∀ below, remaining = below + 1 → P (resolveWithin ctx below)) →
      P (resolveWithin ctx remaining)) (remaining : Nat) : P (resolveWithin ctx remaining) := by
  induction remaining with
  | zero => exact h 0 (by simp)
  | succ below ih =>
    refine h (below + 1) fun below' heq => ?_
    cases heq
    exact ih

theorem keepsTable_resolveWithin (ctx : Context) (remaining : Nat) :
    KeepsTable (resolveWithin ctx remaining) := by
  refine resolveWithin_induction (fun remaining hbelow i expected s => ?_) remaining
  exact (call_step remaining hbelow i expected s).1

theorem resolveWithin_call (ctx : Context) (remaining : Nat) (i : NodeIndex) (expected : Option Ty)
    (s : Session) :
    (resolveWithin ctx remaining i expected).After s fun _ s' => Call ctx remaining i s s' :=
  (call_step remaining (fun below _ => keepsTable_resolveWithin ctx below) i expected s).2

end ScriptTyping
