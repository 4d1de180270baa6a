import ScriptTyping.Proofs.LexicalScoping
import ScriptTyping.Proofs.Lockstep
import ScriptTyping.Proofs.Upkeep

/-!
# The depth limit only cuts

The first phase knows no limit, and the second looks at it only where a resolution has used it up.
So a check that stays within its limit comes to the same with a higher one. A check that does not
says so once.
-/

namespace ScriptTyping

open Session Check

variable {ctx : Context} {table : SymbolTable} {root : NodeIndex} {σ : ScopeId}
  {expected : Option Ty}

/-- The same context with another depth limit. -/
def Context.withLimit (ctx : Context) (limit : Nat) : Context :=
  { ctx with options := { ctx.options with maxResolutionDepth := limit } }

/-! ## What does not know the limit -/

section WithLimit

variable (ctx : Context) (limit : Nat)

theorem truthsWithin_withLimit (depth : Nat) (c : NodeIndex) (σ : ScopeId) :
    truthsWithin (ctx.withLimit limit) depth c σ = truthsWithin ctx depth c σ := by
  induction depth generalizing c σ with
  | zero => rfl
  | succ depth ih =>
    unfold truthsWithin
    simp only [ih]
    rfl

theorem declareStatements_withLimit (statements : List NodeIndex) :
    declareStatements (ctx.withLimit limit) statements = declareStatements ctx statements := by
  induction statements with
  | nil => rfl
  | cons i rest ih =>
    unfold declareStatements
    rw [ih]
    rfl

theorem childWires_withLimit (i : NodeIndex) (kind : NodeKind) (σ : ScopeId) :
    childWires (ctx.withLimit limit) i kind σ = childWires ctx i kind σ := by
  unfold childWires Check.truths
  simp only [truthsWithin_withLimit, declareStatements_withLimit]
  rfl

theorem wireWithin_withLimit (depth : Nat) (i : NodeIndex) (σ : ScopeId) :
    wireWithin (ctx.withLimit limit) depth i σ = wireWithin ctx depth i σ := by
  induction depth generalizing i σ with
  | zero => rfl
  | succ depth ih =>
    unfold wireWithin
    simp only [childWires_withLimit, ih]
    rfl

theorem symbolTypeWithin_withLimit (resolve : Resolver) (i : NodeIndex) (links : Nat)
    (id : SymbolId) : symbolTypeWithin (ctx.withLimit limit) resolve i links id =
      symbolTypeWithin ctx resolve i links id := by
  induction links generalizing id with
  | zero => rfl
  | succ links ih =>
    unfold symbolTypeWithin
    simp only [ih]
    rfl

theorem resolveBlock_withLimit (resolve : Resolver) (expected : Option Ty)
    (statements : List NodeIndex) :
    resolveBlock (ctx.withLimit limit) resolve expected statements =
      resolveBlock ctx resolve expected statements := by
  induction statements with
  | nil => rfl
  | cons i rest ih =>
    cases rest with
    | nil => rfl
    | cons _ _ =>
      unfold resolveBlock
      rw [ih]

theorem resolveArguments_withLimit (resolve : Resolver) (order : List Argument)
    (inference : Inference) (types : List Ty) :
    resolveArguments (ctx.withLimit limit) resolve order inference types =
      resolveArguments ctx resolve order inference types := by
  induction order generalizing inference types with
  | nil => rfl
  | cons a rest ih =>
    unfold resolveArguments
    simp only [ih]
    rfl

theorem resolveKind_withLimit (resolve : Resolver) (i : NodeIndex) (scopes : NodeScopes)
    (expected : Option Ty) (kind : NodeKind) :
    resolveKind (ctx.withLimit limit) resolve i scopes expected kind =
      resolveKind ctx resolve i scopes expected kind := by
  cases kind with
  | identifier name =>
    simp only [resolveKind, resolveIdentifier, symbolType, symbolTypeWithin_withLimit]
    rfl
  | block statements => simp only [resolveKind, resolveBlock_withLimit]
  | invocation callee arguments trailing =>
    simp only [resolveKind, resolveInvocation, resolveCall, resolveArguments_withLimit]
    rfl
  | _ => rfl

theorem resolveWithin_withLimit (levels : Nat) :
    resolveWithin (ctx.withLimit limit) levels = resolveWithin ctx levels := by
  induction levels with
  | zero =>
    funext i e
    unfold resolveWithin
    rfl
  | succ below ih =>
    funext i e
    unfold resolveWithin
    simp only [ih, resolveKind_withLimit]
    rfl

end WithLimit

/-! ## Two limits -/

/-- A run within its limit, beside one that may go deeper. -/
def withinLimit (ctx : Context) : Pairing ctx where
  valid s := s.depthExceeded = false
  expects := Eq
  extra := []
  earlier hbefore hvalid := by
    by_contra hexceeded
    rw [hbefore.limit (by simpa using hexceeded)] at hvalid
    cases hvalid
  same _ := rfl
  bind _ h := congrArg (Option.bind · _) h
  lambda _ _ _ h := h

theorem resolve_follows_deeper {limit : Nat} (hle : ctx.options.maxResolutionDepth ≤ limit) :
    Follows (withinLimit ctx) (Check.resolve ctx) (Check.resolve (ctx.withLimit limit)) := by
  intro i e e' he
  have hfollows := resolveWithin_lockstep (p := withinLimit ctx) hle (Or.inr fun _ h => h)
  unfold Check.resolve
  rw [resolveWithin_withLimit]
  exact hfollows i e e' he

theorem Lockstep.continue_eq {α β : Type} (ctx : Context) {m : Check α} {f f' : α → Check β}
    {s : Session} (h : ∀ a, Lockstep (withinLimit ctx) (f a) (f' a))
    (hquiet : (m >>= f).After s fun _ s' => s'.depthExceeded = false) :
    (m >>= f') s = (m >>= f) s := by
  obtain ⟨hresult, hlinked⟩ := (h (m s).1).step ((Pairing.linked_iff_eq rfl).mpr rfl) hquiet
  exact Prod.ext hresult ((Pairing.linked_iff_eq rfl).mp hlinked)

theorem checkRoot_deeper {limit : Nat} (hle : ctx.options.maxResolutionDepth ≤ limit)
    (hquiet : (checkRoot ctx root σ expected).After (.start ctx table) fun _ s =>
      s.depthExceeded = false) :
    checkRoot (ctx.withLimit limit) root σ expected (.start ctx table) =
      checkRoot ctx root σ expected (.start ctx table) := by
  have hfollows := resolve_follows_deeper hle
  have hwire : wire (ctx.withLimit limit) root σ = wire ctx root σ :=
    wireWithin_withLimit ctx limit _ root σ
  unfold checkRoot at hquiet ⊢
  rw [hwire]
  refine Lockstep.continue_eq ctx (fun _ => ?_) hquiet
  refine (hfollows.visit root expected).bind fun ty => ?_
  have hrest := resolveRest_lockstep hfollows (ctx.tree.descendants root)
  cases expected with
  | none => exact hrest.bind fun _ => .pure ty
  | some target =>
    exact (checkAssignable_lockstep root ty target).bind fun _ => hrest.bind fun _ => .pure ty

/-- A check reports the limit at most once. If it does not, it comes to the same with every higher
limit: the same types and bindings, findings, symbols and scopes. -/
theorem depth_limit_only_cuts (ctx : Context) (table : SymbolTable) (root : NodeIndex)
    (σ : ScopeId) (expected : Option Ty) :
    (check ctx table root σ expected).1.diagnostics.countP
        (fun f => f.code == Message.expressionTooDeep.code) ≤ 1 ∧
      ((∀ f ∈ (check ctx table root σ expected).1.diagnostics,
          f.code ≠ Message.expressionTooDeep.code) →
        ∀ limit, ctx.options.maxResolutionDepth ≤ limit →
          check (ctx.withLimit limit) table root σ expected = check ctx table root σ expected) := by
  have htold := checkRoot_limitTold ctx table root σ expected
  refine ⟨htold.count_le_one, fun hnone limit hle => ?_⟩
  have hquiet : (checkRoot ctx root σ expected).After (.start ctx table) fun _ s =>
      s.depthExceeded = false := by
    by_contra hexceeded
    obtain ⟨f, hf, hcode⟩ := htold.exceeded_iff.mp (by simpa [After] using hexceeded)
    exact hnone f hf hcode
  unfold check
  simp only [StateT.run]
  rw [show Session.start (ctx.withLimit limit) table = .start ctx table from rfl,
    checkRoot_deeper hle hquiet]

/-- Three levels are enough for `if (v is string) v else v`, and two are not. -/
theorem three_levels_enough :
    check guardedContext guardedTable 5 0 none =
        check (guardedContext.withLimit 3) guardedTable 5 0 none ∧
      ∃ f ∈ (check (guardedContext.withLimit 2) guardedTable 5 0 none).1.diagnostics,
        f.code = Message.expressionTooDeep.code := by
  have hquiet : ∀ f ∈ (check (guardedContext.withLimit 3) guardedTable 5 0 none).1.diagnostics,
      f.code ≠ Message.expressionTooDeep.code := by decide +kernel
  constructor
  · exact (depth_limit_only_cuts (guardedContext.withLimit 3) guardedTable 5 0 none).2 hquiet 256
      (by decide)
  · decide +kernel

end ScriptTyping
