import ScriptTyping.CheckResult
import ScriptTyping.Exec.Basic

/-!
# Generating the executable form

The third phase. It takes a typed tree and builds each node from what is recorded of it. A node
that is done is marked, and stays marked if a later one fails.
-/

namespace ScriptTyping

inductive GenerateError
  /-- The node is not typed, or already generated. -/
  | phaseOrder (node : NodeIndex) (state : String)
  | missingBinding (node : NodeIndex) (kind binding : String)
  | missingSymbol (symbol : SymbolId)
  | notAnExpression (node : NodeIndex) (kind : String)
deriving DecidableEq

def GenerateError.message : GenerateError → String
  | phaseOrder node state => s!"node {node} cannot be generated in state {state}"
  | missingBinding node kind binding => s!"{kind} node {node} has no {binding} binding"
  | missingSymbol symbol => s!"symbol {symbol} is not in the symbol table"
  | notAnExpression node kind => s!"{kind} node {node} is not an expression"

/-- What the generation reads: a checked tree with its symbols. -/
structure Checked where
  tree : Tree
  definitions : Definitions
  table : SymbolTable
  symbolTypes : OrderedMap SymbolId Ty

/-- A computation that marks nodes; on failure the marks remain. -/
abbrev Generate := ExceptT GenerateError (StateM NodeStates)

namespace Generate

/-! ## Marking nodes -/

/-- What is recorded of a node that is not generated yet. -/
def typed (i : NodeIndex) : Generate Resolution := do
  let nodes ← get
  match nodes.get? i with
  | some (.typed r) => pure r
  | _ => throw (.phaseOrder i (nodes.stateName i))

def finish (i : NodeIndex) : Generate Unit := do
  let nodes ← get
  match nodes.markGenerated? i with
  | some nodes => set nodes
  | none => throw (.phaseOrder i (nodes.stateName i))

/-- A type reference generates nothing; it is marked after its arguments. -/
def markTypeRef (c : Checked) : Nat → NodeIndex → Generate Unit
  | 0, i => finish i
  | depth + 1, i => do
    match c.tree.kind? i with
    | some (.typeRef _ args) => args.forM (markTypeRef c depth)
    | _ => pure ()
    finish i

/-! ## Reads -/

/-- Reads a symbol that is not narrowed. -/
def readPlain (site : Site) (id : SymbolId) (s : Symbol) : Exec :=
  match s.origin with
  | .host .. => .hostValue site s.name
  | _ => .localValue site id s.name

/-- The type of a symbol that is not narrowed. -/
def plainType (c : Checked) (id : SymbolId) (s : Symbol) : Ty :=
  match s.origin with
  | .host ty _ => ty
  | _ => (c.symbolTypes.get? id).getD .unknown

/-- A narrowed symbol is read where it was bound and converted. -/
def readSymbol (c : Checked) (site : Site) (id : SymbolId) : Generate Exec :=
  match c.table.symbol? id with
  | none => throw (.missingSymbol id)
  | some s =>
    if s.isNarrowed then
      let base := c.table.unnarrowed id
      match c.table.symbol? base with
      | none => throw (.missingSymbol base)
      | some s => pure (.convert site (readPlain ⟨plainType c base s, site.span⟩ base s))
    else
      pure (readPlain site id s)

/-- The type that the generic definition itself declares, if the object is a bound generic. -/
def declaredMemberType? (ds : Definitions) (object : Ty) (name : String) : Option Ty :=
  match object with
  | .nominal id _ (some _) =>
    match ds.findMembers (ds.selfInstance id) name with
    | [member] => some member.ty
    | _ => none
  | _ => none

/-- A member of a bound generic is read at its declared type and converted to the bound one. -/
def readMember (ds : Definitions) (site : Site) (object : Exec) (name : String)
    (member : Member) : Exec :=
  match declaredMemberType? ds object.site.ty name with
  | some declared =>
    if declared == site.ty then .memberRead site object member
    else .convert site (.memberRead ⟨declared, site.span⟩ object member)
  | none => .memberRead site object member

def lambdaParams (ty : Ty) (bound : List SymbolId) : List ExecParam :=
  match ty with
  | .func params _ => (bound.zip params).map fun (id, param) => ⟨id, param.1, param.2⟩
  | _ => []

/-! ## Nodes -/

/-- The executable form of a node; `generate` gives that of a child and `mark` marks a type
reference. -/
def generateKind (c : Checked) (generate : NodeIndex → Generate Exec)
    (mark : NodeIndex → Generate Unit) (i : NodeIndex) (site : Site) (kind : NodeKind)
    (binding : Binding) : Generate Exec := do
  match kind, binding with
  | .identifier _, .symbol id => readSymbol c site id
  | .identifier _, _ => throw (.missingBinding i kind.name "Symbol")
  | .literal value, _ => pure (.constant site value)
  | .collection elements, _ => return .collection site (← elements.mapM generate)
  | .conditional condition thenBranch elseBranch, _ =>
    let condition ← generate condition
    let thenBranch ← generate thenBranch
    let elseBranch ← match elseBranch with
      | some elseBranch => generate elseBranch
      | none => pure (.constant ⟨Ty.null, site.span⟩ .null)
    pure (.conditional site condition thenBranch elseBranch)
  | .invocation callee arguments trailing, .call signature =>
    let callee ← generate callee
    let arguments ← (arguments ++ trailing.toList).mapM generate
    pure (.invoke site callee arguments signature)
  | .invocation .., _ => throw (.missingBinding i kind.name "Call")
  | .memberAccess object name, .member member =>
    return readMember c.definitions site (← generate object) name member
  | .memberAccess .., _ => throw (.missingBinding i kind.name "Member")
  | .lambda params body, .lambda bound =>
    (params.filterMap (·.ascription)).forM mark
    return .lambda site (lambdaParams site.ty bound) (← generate body)
  | .lambda .., _ => throw (.missingBinding i kind.name "Lambda")
  | .typeTest operand target, .typeTest asserted =>
    let value ← generate operand
    mark target
    pure (.typeTest site value asserted)
  | .typeTest .., _ => throw (.missingBinding i kind.name "TypeTest")
  | .conjunction left right, _ =>
    let left ← generate left
    let right ← generate right
    pure (.conjunction site left right)
  | .block statements, _ => return .block site (← statements.mapM generate)
  | .declaration name isConst ascription initializer, .declaration id =>
    ascription.toList.forM mark
    return .declare site id name isConst (← generate initializer)
  | .declaration .., _ => throw (.missingBinding i kind.name "Declaration")
  | .assignment target value, .assignment _ =>
    let target ← generate target
    let value ← generate value
    pure (.assign site target value)
  | .assignment .., _ => throw (.missingBinding i kind.name "Assignment")
  | .typeRef .., _ => throw (.notAnExpression i kind.name)

/-- Generates a node and what is below it, if no path from it has more than `depth` nodes. -/
def generateWithin (c : Checked) : Nat → NodeIndex → Generate Exec
  | 0, i => do throw (.phaseOrder i ((← get).stateName i))
  | depth + 1, i => do
    let r ← typed i
    match c.tree.get? i with
    | none => throw (.phaseOrder i "Missing")
    | some node =>
      let exec ← generateKind c (generateWithin c depth) (markTypeRef c depth) i
        ⟨r.ty, node.span⟩ node.kind r.binding
      finish i
      pure exec

/-- Generates a node. A path has at most as many nodes as the tree. -/
def generate (c : Checked) (i : NodeIndex) : Generate Exec :=
  generateWithin c (c.tree.size + 1) i

end Generate

/-- Generates from a checked tree; the result keeps which nodes are generated. -/
def CheckResult.generate (r : CheckResult) (tree : Tree) (env : Environment) (table : SymbolTable)
    (i : NodeIndex) : Except GenerateError Exec × CheckResult :=
  let checked : Checked := ⟨tree, env.definitions, table, r.symbolTypes⟩
  let (exec, nodes) := (Generate.generate checked i).run.run r.nodes
  (exec, { r with nodes := nodes })

end ScriptTyping
