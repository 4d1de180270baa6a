import ScriptTyping.Members
import ScriptTyping.Typing.Symbols

/-! # Types of simple expressions and statements -/

namespace ScriptTyping.Check

/-- A finding if `source` does not fit `target`. Nothing is said of types with an unknown part,
which have a finding of their own. -/
def checkAssignable (ctx : Context) (i : NodeIndex) (source target : Ty) : Check Unit :=
  if source.containsUnknown || target.containsUnknown
      || ctx.env.definitions.isAssignable source target then
    pure ()
  else
    reportAt ctx i .typeNotAssignable [source.text, target.text]

/-- An operand that has to be boolean. -/
def resolveCondition (ctx : Context) (resolve : Resolver) (condition : NodeIndex) :
    Check Unit := do
  let ty ← resolve condition (some Ty.boolean)
  if ty.containsUnknown || ctx.env.definitions.isAssignable ty Ty.boolean then
    pure ()
  else
    reportAt ctx condition .conditionNotBoolean [ty.text]

def resolveIdentifier (ctx : Context) (resolve : Resolver) (i : NodeIndex) (scope : ScopeId)
    (name : String) : Check (Ty × Binding) := do
  match (← get).table.resolve scope name with
  | none =>
    reportAt ctx i .cannotFindName [name]
    pure (.unknown, .none)
  | some id =>
    let ty ← symbolType ctx resolve id i
    pure (ty, .symbol id)

/-- A list of the union of the elements' types. -/
def resolveCollection (resolve : Resolver) (elements : List NodeIndex) (expected : Option Ty) :
    Check (Ty × Binding) := do
  let types ← elements.mapM fun i => resolve i (expected.bind Ty.listElement?)
  let element := if types.any Ty.isUnknown then Ty.unknown else Ty.unionOf types
  pure (Ty.listOf element, .none)

/-- Without an else branch the value may be null. -/
def resolveConditional (ctx : Context) (resolve : Resolver) (condition thenBranch : NodeIndex)
    (elseBranch : Option NodeIndex) (expected : Option Ty) : Check (Ty × Binding) := do
  resolveCondition ctx resolve condition
  let thenTy ← resolve thenBranch expected
  match elseBranch with
  | some elseBranch =>
    let elseTy ← resolve elseBranch expected
    pure (ctx.env.definitions.commonSupertype thenTy elseTy, .none)
  | none =>
    pure (if thenTy.isUnknown then .unknown else Ty.unionOf [thenTy, Ty.null], .none)

def resolveConjunction (ctx : Context) (resolve : Resolver) (left right : NodeIndex) :
    Check (Ty × Binding) := do
  resolveCondition ctx resolve left
  resolveCondition ctx resolve right
  pure (Ty.boolean, .none)

/-- A guard on a variable that can be reassigned narrows nothing. -/
def resolveTypeTest (ctx : Context) (resolve : Resolver) (operand target : NodeIndex) :
    Check (Ty × Binding) := do
  let _ ← resolve operand none
  let asserted ← resolve target none
  let s ← get
  match boundSymbol? s operand with
  | some id =>
    if ctx.options.reportNonNarrowableGuards && !s.table.isConst id then
      reportAt ctx operand .guardNotNarrowing [symbolName s id]
  | none => pure ()
  pure (Ty.boolean, .typeTest asserted)

/-- The value of the last statement, if it has one. Only there is anything expected. -/
def resolveBlock (ctx : Context) (resolve : Resolver) (expected : Option Ty) :
    List NodeIndex → Check Ty
  | [] => pure Ty.null
  | [last] => do
    let ty ← resolve last expected
    pure (if ctx.tree.isStatement last then Ty.null else ty)
  | i :: rest => do
    let _ ← resolve i none
    resolveBlock ctx resolve expected rest

/-- The declared type: the ascription, or else the initializer's type, which a variable widens. -/
def declaredType (isConst : Bool) (ascribed : Option Ty) (initializer : Ty) : Ty :=
  match ascribed with
  | some ty => ty
  | none => if isConst then initializer else initializer.widen

def beginDeclaration (i : NodeIndex) : Check Unit :=
  modify fun s => { s with inProgress := s.inProgress.insert i }

def endDeclaration (i : NodeIndex) : Check Unit :=
  modify fun s => { s with inProgress := s.inProgress.filter (· ≠ i) }

/-- The ascription, and the initializer that has to fit it. -/
def resolveInitializer (ctx : Context) (resolve : Resolver) (isConst : Bool)
    (ascription : Option NodeIndex) (initializer : NodeIndex) : Check Ty :=
  match ascription with
  | none => do
    let ty ← resolve initializer none
    pure (declaredType isConst none ty)
  | some ascription => do
    let ascribed ← resolve ascription none
    let ty ← resolve initializer (some ascribed)
    checkAssignable ctx initializer ty ascribed
    pure (declaredType isConst (some ascribed) ty)

def resolveDeclaration (ctx : Context) (resolve : Resolver) (i : NodeIndex) (isConst : Bool)
    (ascription : Option NodeIndex) (initializer : NodeIndex) : Check (Ty × Binding) := do
  beginDeclaration i
  let ty ← resolveInitializer ctx resolve isConst ascription initializer
  endDeclaration i
  match (← get).declared.get? i with
  | some id =>
    setSymbolType id ty
    pure (Ty.null, .declaration id)
  | none => pure (Ty.null, .none)

/-- The target has to be the name of a variable. -/
def resolveAssignment (ctx : Context) (resolve : Resolver) (target value : NodeIndex) :
    Check (Ty × Binding) := do
  match ctx.tree.identifier? target with
  | none =>
    let _ ← resolve target none
    let _ ← resolve value none
    reportAt ctx target .invalidAssignmentTarget []
    pure (.unknown, .none)
  | some _ =>
    let targetTy ← resolve target none
    let s ← get
    match boundSymbol? s target with
    | none =>
      let _ ← resolve value none
      pure (.unknown, .none)
    | some id =>
      if s.table.isConst id then
        reportAt ctx target .assignmentToConst [symbolName s id]
        let _ ← resolve value (some targetTy)
        pure (.unknown, .none)
      else
        let valueTy ← resolve value (some targetTy)
        checkAssignable ctx value valueTy targetTy
        pure (Ty.null, .assignment id)

/-- How many type arguments a named type still takes. -/
def missingArity (ds : Definitions) : Ty → Nat
  | .nominal id _ none => ((ds.get? id).map (·.arity)).getD 0
  | _ => 0

def resolveTypeRef (ctx : Context) (resolve : Resolver) (i : NodeIndex) (name : String)
    (args : List NodeIndex) : Check (Ty × Binding) := do
  let types ← args.mapM fun arg => resolve arg none
  match ctx.env.types.get? name with
  | none =>
    reportAt ctx i .cannotFindType [name]
    pure (.unknown, .none)
  | some ty =>
    let arity := missingArity ctx.env.definitions ty
    if arity ≠ types.length then
      if types.isEmpty then
        reportAt ctx i .typeArgumentsRequired [name, toString arity]
      else
        reportAt ctx i .typeArgumentCount [name, toString arity, toString types.length]
      pure (.unknown, .none)
    else if arity = 0 then
      pure (ty, .none)
    else
      match ctx.env.definitions.bind ty types with
      | .ok bound => pure (bound, .none)
      | .error _ => pure (.unknown, .none)

end ScriptTyping.Check
