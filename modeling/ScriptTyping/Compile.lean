import ScriptTyping.Exec.Generate
import ScriptTyping.Exec.Text

/-! # Compiling a tree -/

namespace ScriptTyping

/-- The executable form is there only without findings. -/
structure Compilation where
  diagnostics : List Diagnostic
  rootType : Ty
  executable : Option Exec

def Compilation.hasErrors (c : Compilation) : Bool := c.diagnostics.any (·.isError)

/-- Checks a tree and generates it if nothing was found. -/
def compile (ctx : Context) (table : SymbolTable) (root : NodeIndex) (scope : ScopeId)
    (expected : Option Ty) : Except GenerateError Compilation × SymbolTable :=
  let (result, table) := check ctx table root scope expected
  if result.hasErrors then
    (.ok ⟨result.diagnostics, result.rootType, none⟩, table)
  else
    match (result.generate ctx.tree ctx.env table root).1 with
    | .error e => (.error e, table)
    | .ok exec => (.ok ⟨result.diagnostics, result.rootType, some exec⟩, table)

/-- Compiles a tree that reads the given constants of the host. -/
def compileExpression (ctx : Context) (values : List (String × Ty)) (root : NodeIndex)
    (expected : Option Ty) : Except GenerateError Compilation :=
  let (scope, table) := SymbolTable.hostScope {} values
  (compile ctx table root scope expected).1

end ScriptTyping
