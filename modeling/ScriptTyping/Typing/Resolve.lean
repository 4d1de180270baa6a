import ScriptTyping.Typing.Calls

/-!
# Resolving nodes

The second phase. A node is resolved at most once; asked again, it answers with the type that is
recorded. The depth limit bounds the recursion.
-/

namespace ScriptTyping.Check

/-- The type and binding of a node by its kind. -/
def resolveKind (ctx : Context) (resolve : Resolver) (i : NodeIndex) (scopes : NodeScopes)
    (expected : Option Ty) : NodeKind → Check (Ty × Binding)
  | .identifier name => resolveIdentifier ctx resolve i scopes.scope name
  | .literal value => pure (Ty.ofConstant value, .none)
  | .collection elements => resolveCollection resolve elements expected
  | .conditional condition thenBranch elseBranch =>
    resolveConditional ctx resolve condition thenBranch elseBranch expected
  | .invocation callee arguments trailing =>
    resolveInvocation ctx resolve i callee (arguments ++ trailing.toList)
  | .memberAccess object member => resolveMember ctx resolve i object member
  | .lambda params body => resolveLambda ctx resolve scopes.inner params body expected
  | .typeTest operand target => resolveTypeTest ctx resolve operand target
  | .conjunction left right => resolveConjunction ctx resolve left right
  | .block statements => do
    let ty ← resolveBlock ctx resolve expected statements
    pure (ty, .none)
  | .declaration _ isConst ascription initializer =>
    resolveDeclaration ctx resolve i isConst ascription initializer
  | .assignment target value => resolveAssignment ctx resolve target value
  | .typeRef name args => resolveTypeRef ctx resolve i name args

/-- The depth limit is reported only once. -/
def reportTooDeep (ctx : Context) (i : NodeIndex) : Check Unit := do
  if !(← get).depthExceeded then
    modify fun s => { s with depthExceeded := true }
    reportAt ctx i .expressionTooDeep []

def enter : Check Unit := modify fun s => { s with depth := s.depth + 1 }

def leave : Check Unit := modify fun s => { s with depth := s.depth - 1 }

/-- The depth of the session and the levels that are left make up the limit. -/
def OnLevel (ctx : Context) (remaining : Nat) (s : Session) : Prop :=
  s.depth + remaining = ctx.options.maxResolutionDepth

/-- Resolves a node with `remaining` levels left below the depth limit. It is called on this level
only (`OnLevel`), where no level is left if and only if the depth has come to the limit. A node
without scopes is unknown, and stays as it is. -/
def resolveWithin (ctx : Context) (remaining : Nat) (i : NodeIndex) (expected : Option Ty) :
    Check Ty := do
  let s ← get
  match s.nodes.type? i with
  | some ty => pure ty
  | none =>
    match s.nodes.scopes? i, ctx.tree.get? i with
    | some scopes, some node =>
      match remaining with
      | 0 =>
        reportTooDeep ctx i
        record i .unknown .none
        pure .unknown
      | below + 1 =>
        enter
        let (ty, binding) ← resolveKind ctx (resolveWithin ctx below) i scopes expected node.kind
        leave
        record i ty binding
        pure ty
    | _, _ => pure .unknown

def resolve (ctx : Context) (i : NodeIndex) (expected : Option Ty) : Check Ty :=
  resolveWithin ctx ctx.options.maxResolutionDepth i expected

/-! ## Levels and depth -/

namespace OnLevel

variable {ctx : Context} {remaining below : Nat} {s : Session}

theorem of_depth_eq_zero (h : s.depth = 0) : OnLevel ctx ctx.options.maxResolutionDepth s := by
  rw [OnLevel, h, Nat.zero_add]

theorem eq_zero_iff (h : OnLevel ctx remaining s) :
    remaining = 0 ↔ ctx.options.maxResolutionDepth ≤ s.depth := by
  unfold OnLevel at h
  omega

theorem enter (h : OnLevel ctx (below + 1) s) : OnLevel ctx below (Check.enter s).2 :=
  (Nat.add_right_comm s.depth 1 below).trans h

end OnLevel

end ScriptTyping.Check
