import ScriptTyping.Typing.Resolve
import ScriptTyping.Wiring

/-!
# Checking a tree

All nodes are wired before any is resolved, since a name may be read before its declaration.
-/

namespace ScriptTyping

structure CheckResult where
  root : NodeIndex
  rootType : Ty
  nodes : NodeStates
  symbolTypes : OrderedMap SymbolId Ty
  diagnostics : List Diagnostic

namespace CheckResult

def hasErrors (r : CheckResult) : Bool := r.diagnostics.any (·.isError)

def typeOf? (r : CheckResult) (i : NodeIndex) : Option Ty := r.nodes.type? i

end CheckResult

namespace Check

/-- Resolves the nodes that no parent has asked for. -/
def resolveRest (ctx : Context) : List NodeIndex → Check Unit
  | [] => pure ()
  | i :: rest => do
    if ((← get).nodes.resolution? i).isNone then
      let _ ← resolve ctx i none
    resolveRest ctx rest

/-- Both phases over the tree; the root has to fit the type expected of it, if any. -/
def checkRoot (ctx : Context) (root : NodeIndex) (scope : ScopeId) (expected : Option Ty) :
    Check Ty := do
  wire ctx root scope
  let ty ← resolve ctx root expected
  match expected with
  | some target => checkAssignable ctx root ty target
  | none => pure ()
  resolveRest ctx (ctx.tree.descendants root)
  pure ty

end Check

/-- Checks the tree below `root` in the given scope. The symbols and scopes of the script are
added to the table. -/
def check (ctx : Context) (table : SymbolTable) (root : NodeIndex) (scope : ScopeId)
    (expected : Option Ty) : CheckResult × SymbolTable :=
  let (ty, s) := (Check.checkRoot ctx root scope expected).run (.start ctx table)
  (⟨root, ty, s.nodes, s.symbolTypes, s.diagnostics⟩, s.table)

end ScriptTyping
