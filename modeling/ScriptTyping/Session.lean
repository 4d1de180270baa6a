import ScriptTyping.Definitions.Builtin
import ScriptTyping.Diagnostic
import ScriptTyping.NodeState
import ScriptTyping.Options
import ScriptTyping.Tree.Basic

/-!
# The state of one check

What is given stays in the context; what is found out goes into the session.
-/

namespace ScriptTyping

structure Context where
  env : Environment
  options : Options
  tree : Tree

structure Session where
  nodes : NodeStates
  table : SymbolTable
  /-- The types of symbols other than the host's. -/
  symbolTypes : OrderedMap SymbolId Ty := .empty
  diagnostics : List Diagnostic := []
  /-- The symbol of each declaration. -/
  declared : OrderedMap NodeIndex SymbolId := .empty
  /-- The narrowed symbols of each guard and conjunction. -/
  truths : OrderedMap NodeIndex (List SymbolId) := .empty
  /-- The scope of each conjunction's right operand. -/
  conjunctions : OrderedMap NodeIndex ScopeId := .empty
  /-- The declarations that are being resolved. -/
  inProgress : List NodeIndex := []
  /-- How many resolutions are under way. -/
  depth : Nat := 0
  /-- Whether the depth limit has been reported. -/
  depthExceeded : Bool := false

def Session.start (ctx : Context) (table : SymbolTable) : Session where
  nodes := .initial ctx.tree.size
  table := table

/-- A computation within a session. -/
abbrev Check := StateM Session

namespace Check

/-! ## Reporting -/

def report (span : Span) (m : Message) (args : List String) : Check Unit :=
  modify fun s => { s with diagnostics := s.diagnostics ++ [.ofMessage span m args] }

def reportAt (ctx : Context) (i : NodeIndex) (m : Message) (args : List String) : Check Unit :=
  report (ctx.tree.span i) m args

/-! ## Symbols and scopes -/

def addSymbol (symbol : Symbol) : Check SymbolId :=
  modifyGet fun s => let (id, table) := s.table.addSymbol symbol; (id, { s with table := table })

def addScope (parent : ScopeId) (symbols : List SymbolId) : Check ScopeId :=
  modifyGet fun s =>
    let (id, table) := s.table.addScope (some parent) symbols
    (id, { s with table := table })

def setSymbolType (id : SymbolId) (ty : Ty) : Check Unit :=
  modify fun s => { s with symbolTypes := s.symbolTypes.insert id ty }

/-! ## Nodes -/

/-- Whether the node was still unresolved and has now its scopes. -/
def assignScopes (i : NodeIndex) (scopes : NodeScopes) : Check Bool :=
  modifyGet fun s =>
    match s.nodes.assignScopes? i scopes with
    | some nodes => (true, { s with nodes := nodes })
    | none => (false, s)

def record (i : NodeIndex) (ty : Ty) (binding : Binding) : Check Unit :=
  modify fun s => { s with nodes := (s.nodes.record? i ty binding).getD s.nodes }

end Check

end ScriptTyping
