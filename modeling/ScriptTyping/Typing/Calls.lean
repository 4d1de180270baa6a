import ScriptTyping.Inference
import ScriptTyping.Typing.Expressions

/-! # Types of calls, member reads and lambdas -/

namespace ScriptTyping.Check

/-! ## Calls -/

/-- An argument of a call at its place, with the type of its parameter. -/
structure Argument where
  place : Nat
  node : NodeIndex
  parameter : Ty

def argumentsOf (nodes : List NodeIndex) (params : List (String × Ty)) : List Argument :=
  (nodes.zip params).zipIdx.map fun ((node, param), place) => ⟨place, node, param.2⟩

/-- Lambdas come last, so that they see what the other arguments have inferred. -/
def resolutionOrder (ctx : Context) (arguments : List Argument) : List Argument :=
  arguments.filter (fun a => !ctx.tree.isLambda a.node) ++
    arguments.filter fun a => ctx.tree.isLambda a.node

/-- Resolves each argument against what is inferred so far and infers from it. The types stand at
the arguments' places. -/
def resolveArguments (ctx : Context) (resolve : Resolver) :
    List Argument → Inference → List Ty → Check (Inference × List Ty)
  | [], inference, types => pure (inference, types)
  | a :: rest, inference, types => do
    let ty ← resolve a.node (some (a.parameter.instantiate inference.bindings))
    resolveArguments ctx resolve rest (inference.infer ctx.env.definitions a.parameter ty)
      (types.set a.place ty)

def checkArgument (ctx : Context) (argument : NodeIndex) (ty parameter : Ty) : Check Unit :=
  if ty.containsUnknown || parameter.containsUnknown
      || ctx.env.definitions.isAssignable ty parameter then
    pure ()
  else
    reportAt ctx argument .argumentNotAssignable [ty.text, parameter.text]

/-- Arguments of a call that does not match; `expected` runs along as far as it goes. -/
def resolveUnmatched (resolve : Resolver) : List NodeIndex → List (String × Ty) → Check Unit
  | [], _ => pure ()
  | i :: rest, params => do
    let _ ← resolve i (params.head?.map (·.2))
    resolveUnmatched resolve rest params.tail

/-- The call of a function with as many arguments as it has parameters. -/
def resolveCall (ctx : Context) (resolve : Resolver) (callee : Ty) (params : List (String × Ty))
    (arguments : List NodeIndex) : Check (Ty × Binding) := do
  let order := resolutionOrder ctx (argumentsOf arguments params)
  let unknowns := arguments.map fun _ => Ty.unknown
  let (inference, types) ← resolveArguments ctx resolve order ⟨callee.freeParams, .empty⟩ unknowns
  match callee.instantiate inference.finish with
  | .func params result =>
    ((arguments.zip types).zip params).forM fun ((argument, ty), param) =>
      checkArgument ctx argument ty param.2
    pure (result, .call (.func params result))
  | _ => pure (.unknown, .none)

def resolveInvocation (ctx : Context) (resolve : Resolver) (i callee : NodeIndex)
    (arguments : List NodeIndex) : Check (Ty × Binding) := do
  let calleeTy ← resolve callee none
  match calleeTy with
  | .func params _ =>
    if params.length = arguments.length then
      resolveCall ctx resolve calleeTy params arguments
    else
      reportAt ctx i .argumentCount [toString params.length, toString arguments.length]
      resolveUnmatched resolve arguments params
      pure (.unknown, .none)
  | _ =>
    if !calleeTy.isUnknown then
      reportAt ctx callee .notInvocable [calleeTy.text]
    resolveUnmatched resolve arguments []
    pure (.unknown, .none)

/-! ## Member reads -/

/-- Members of a literal are those of its backing type. -/
def resolveMember (ctx : Context) (resolve : Resolver) (i object : NodeIndex) (member : String) :
    Check (Ty × Binding) := do
  let objectTy ← resolve object none
  if objectTy.isUnknown then
    pure (.unknown, .none)
  else
    match ctx.env.definitions.findMembers objectTy.widen member with
    | [] =>
      reportAt ctx i .memberNotFound [member, objectTy.text]
      pure (.unknown, .none)
    | [found] => pure (found.ty, .member found)
    | _ =>
      reportAt ctx i .memberAmbiguous [member, objectTy.text]
      pure (.unknown, .none)

/-! ## Lambdas -/

def expectedParams : Option Ty → List (String × Ty)
  | some (.func params _) => params
  | _ => []

/-- A result is expected of the body only if it is known and closed. -/
def expectedResult : Option Ty → Option Ty
  | some (.func _ result) =>
    if result.isUnknown || !result.freeParams.isEmpty then none else some result
  | _ => none

/-- The ascription of a parameter, or else the type expected at its place. -/
def parameterType (resolve : Resolver) (param : LambdaParam) (expected : Option (String × Ty)) :
    Check Ty :=
  match param.ascription, expected with
  | some ascription, _ => resolve ascription none
  | none, some (_, ty) => pure ty
  | none, none => do
    report param.span .parameterNotInferred [param.name]
    pure .unknown

def resolveParams (resolve : Resolver) :
    List (LambdaParam × SymbolId) → List (String × Ty) → Check (List (String × Ty))
  | [], _ => pure []
  | (param, id) :: rest, expected => do
    let ty ← parameterType resolve param expected.head?
    setSymbolType id ty
    let params ← resolveParams resolve rest expected.tail
    pure ((param.name, ty) :: params)

/-- The parameters with their symbols. The implicit one is there only if one is expected. -/
def resolveLambdaParams (ctx : Context) (resolve : Resolver) (params : List LambdaParam)
    (symbols : List SymbolId) (expected : List (String × Ty)) :
    Check (List (String × Ty) × List SymbolId) := do
  if params.isEmpty then
    match symbols, expected with
    | id :: _, (_, ty) :: _ =>
      setSymbolType id ty
      pure ([(ctx.options.implicitLambdaParameter, ty)], [id])
    | _, _ => pure ([], [])
  else
    let resolved ← resolveParams resolve (params.zip symbols) expected
    pure (resolved, (params.zip symbols).map (·.2))

def resolveLambda (ctx : Context) (resolve : Resolver) (inner : Option ScopeId)
    (params : List LambdaParam) (body : NodeIndex) (expected : Option Ty) :
    Check (Ty × Binding) := do
  let scope := inner.bind (← get).table.scope?
  let symbols := (scope.map (·.symbols)).getD []
  let (resolved, bound) ←
    resolveLambdaParams ctx resolve params symbols (expectedParams expected)
  let bodyTy ← resolve body (expectedResult expected)
  pure (.func resolved bodyTy, .lambda bound)

end ScriptTyping.Check
