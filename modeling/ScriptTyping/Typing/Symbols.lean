import ScriptTyping.Narrowing
import ScriptTyping.Session

/-!
# Types of symbols

The type of a symbol is found on demand; a declaration that is read before its turn is resolved
first.
-/

namespace ScriptTyping.Check

/-- Resolves a node, given the type that is expected of it. -/
abbrev Resolver := NodeIndex → Option Ty → Check Ty

/-- The type that a guard asserts. -/
def guardType (ctx : Context) (resolve : Resolver) (guard : NodeIndex) : Check Ty :=
  match ctx.tree.kind? guard with
  | some (.typeTest _ target) => resolve target none
  | _ => pure .unknown

/-- Follows narrowings to at most `links` originals. -/
def symbolTypeWithin (ctx : Context) (resolve : Resolver) (useSite : NodeIndex) :
    Nat → SymbolId → Check Ty
  | 0, _ => pure .unknown
  | links + 1, id => do
    let s ← get
    match s.symbolTypes.get? id with
    | some ty => pure ty
    | none =>
      match s.table.symbol? id with
      | none => pure .unknown
      | some ⟨_, .host ty _⟩ => pure ty
      | some ⟨name, .source declaration _⟩ =>
        if s.inProgress.contains declaration then
          reportAt ctx useSite .circularReference [name]
          pure .unknown
        else
          let _ ← resolve declaration none
          pure (((← get).symbolTypes.get? id).getD .unknown)
      | some ⟨name, .parameter _ _⟩ =>
        -- A lambda gives its parameters their types before its body is resolved.
        reportAt ctx useSite .parameterNotInferred [name]
        setSymbolType id .unknown
        pure .unknown
      | some ⟨_, .narrowed original guard⟩ =>
        let declared ← symbolTypeWithin ctx resolve useSite links original
        let asserted ← guardType ctx resolve guard
        let ty := ctx.env.definitions.narrow asserted declared
        setSymbolType id ty
        pure ty

/-- The type of a symbol that is read at `useSite`, where a cycle is reported. -/
def symbolType (ctx : Context) (resolve : Resolver) (id : SymbolId) (useSite : NodeIndex) :
    Check Ty := do
  symbolTypeWithin ctx resolve useSite ((← get).table.symbols.size + 1) id

/-- The symbol that a resolved identifier is bound to. -/
def boundSymbol? (s : Session) (i : NodeIndex) : Option SymbolId :=
  match s.nodes.resolution? i with
  | some ⟨_, _, .symbol id⟩ => some id
  | _ => none

def symbolName (s : Session) (id : SymbolId) : String :=
  ((s.table.symbol? id).map (·.name)).getD ""

end ScriptTyping.Check
