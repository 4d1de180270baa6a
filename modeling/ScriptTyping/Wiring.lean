import ScriptTyping.Session

/-!
# Wiring nodes to scopes

The first phase. Every node gets the scope it reads names in. New scopes open for the parameters
of a lambda, the declarations of a block, and the narrowed symbols where a guard holds.
-/

namespace ScriptTyping.Check

/-! ## Guards -/

/-- A child scope with the narrowed symbols, so that the latest is found first; the scope itself
if there are none. -/
def narrowedScope (scope : ScopeId) (narrowed : List SymbolId) : Check ScopeId :=
  if narrowed.isEmpty then pure scope else addScope scope narrowed.reverse

/-- The narrowed symbol of a guard on a name, if the name means a constant. -/
def narrowName (name : String) (guard : NodeIndex) (scope : ScopeId) : Check (List SymbolId) := do
  let table := (← get).table
  match table.resolve scope name with
  | none => pure []
  | some original =>
    if table.isConst original then
      let id ← addSymbol ⟨name, .narrowed original guard⟩
      pure [id]
    else
      pure []

def rememberTruths (condition : NodeIndex) (symbols : List SymbolId) : Check Unit :=
  modify fun s => { s with truths := s.truths.insert condition symbols }

def rememberConjunction (condition : NodeIndex) (scope : ScopeId) : Check Unit :=
  modify fun s => { s with conjunctions := s.conjunctions.insert condition scope }

def truthsWithin (ctx : Context) : Nat → NodeIndex → ScopeId → Check (List SymbolId)
  | 0, _, _ => pure []
  | depth + 1, condition, scope => do
    match (← get).truths.get? condition with
    | some known => pure known
    | none =>
      match ctx.tree.kind? condition with
      | some (.typeTest operand _) =>
        match ctx.tree.identifier? operand with
        | none => pure []
        | some name =>
          let symbols ← narrowName name condition scope
          rememberTruths condition symbols
          pure symbols
      | some (.conjunction left right) =>
        let leftSymbols ← truthsWithin ctx depth left scope
        let rightScope ← narrowedScope scope leftSymbols
        rememberConjunction condition rightScope
        let rightSymbols ← truthsWithin ctx depth right rightScope
        rememberTruths condition (leftSymbols ++ rightSymbols)
        pure (leftSymbols ++ rightSymbols)
      | _ => pure []

/-- The narrowed symbols that hold while the condition is true. The right operand of a conjunction
already sees those of the left one. A condition makes its symbols only once. -/
def truths (ctx : Context) (condition : NodeIndex) (scope : ScopeId) : Check (List SymbolId) :=
  truthsWithin ctx ctx.tree.size condition scope

/-! ## Declarations and parameters -/

def declare (declaration : NodeIndex) (name : String) (isConst : Bool) : Check SymbolId := do
  let id ← addSymbol ⟨name, .source declaration isConst⟩
  modify fun s => { s with declared := s.declared.insert declaration id }
  pure id

/-- Declares the declarations among the statements. -/
def declareStatements (ctx : Context) : List NodeIndex → Check (List SymbolId)
  | [] => pure []
  | i :: rest =>
    match ctx.tree.kind? i with
    | some (.declaration name isConst _ _) => do
      let id ← declare i name isConst
      let ids ← declareStatements ctx rest
      pure (id :: ids)
    | _ => declareStatements ctx rest

def addParameters (lambda : NodeIndex) : List String → Nat → Check (List SymbolId)
  | [], _ => pure []
  | name :: rest, index => do
    let id ← addSymbol ⟨name, .parameter lambda index⟩
    let ids ← addParameters lambda rest (index + 1)
    pure (id :: ids)

/-- A lambda without parameters has the implicit one. -/
def parameterNames (ctx : Context) (params : List LambdaParam) : List String :=
  if params.isEmpty then [ctx.options.implicitLambdaParameter] else params.map (·.name)

/-! ## The scopes of a node's children -/

/-- The scope that a node opens, and each child with its scope. -/
structure Wires where
  inner : Option ScopeId
  children : List (NodeIndex × ScopeId)

/-- Only a scope other than the node's own counts as opened. -/
def openedFrom (scope opened : ScopeId) : Option ScopeId :=
  if opened = scope then none else some opened

def childWires (ctx : Context) (i : NodeIndex) (kind : NodeKind) (scope : ScopeId) :
    Check Wires :=
  match kind with
  | .conditional condition thenBranch elseBranch => do
    let symbols ← truths ctx condition scope
    let thenScope ← narrowedScope scope symbols
    pure ⟨openedFrom scope thenScope,
      (condition, scope) :: (thenBranch, thenScope) :: elseBranch.toList.map (·, scope)⟩
  | .conjunction left right => do
    let _ ← truths ctx i scope
    let rightScope := ((← get).conjunctions.get? i).getD scope
    pure ⟨openedFrom scope rightScope, [(left, scope), (right, rightScope)]⟩
  | .lambda params body => do
    let symbols ← addParameters i (parameterNames ctx params) 0
    let lambdaScope ← addScope scope symbols
    pure ⟨some lambdaScope,
      (params.filterMap (·.ascription)).map (·, scope) ++ [(body, lambdaScope)]⟩
  | .block statements => do
    let symbols ← declareStatements ctx statements
    let blockScope ← addScope scope symbols
    pure ⟨some blockScope, statements.map (·, blockScope)⟩
  | .declaration name isConst _ _ => do
    -- Outside a block nobody can see the symbol.
    if !(← get).declared.contains i then
      let _ ← declare i name isConst
    pure ⟨none, kind.children.map (·, scope)⟩
  | _ => pure ⟨none, kind.children.map (·, scope)⟩

/-- Wires a node and then its children. A node that has its scopes already is left as it is, with
what is below it; what it opens is made anew all the same. -/
def wireWithin (ctx : Context) : Nat → NodeIndex → ScopeId → Check Unit
  | 0, _, _ => pure ()
  | depth + 1, i, scope =>
    match ctx.tree.get? i with
    | none => pure ()
    | some node => do
      let wires ← childWires ctx i node.kind scope
      if ← assignScopes i ⟨scope, wires.inner⟩ then
        wires.children.forM fun (child, childScope) => wireWithin ctx depth child childScope

/-- Wires the subtree of `root`. Every node on the way down is wired for the first time, so the
way is no longer than the tree has nodes. -/
def wire (ctx : Context) (root : NodeIndex) (scope : ScopeId) : Check Unit :=
  wireWithin ctx (ctx.tree.size + 1) root scope

end ScriptTyping.Check
