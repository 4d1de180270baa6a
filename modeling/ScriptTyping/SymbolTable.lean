import ScriptTyping.Tree.Node
import ScriptTyping.Ty.Basic

/-!
# Symbols and scopes

A scope is a link in a chain of parents and never changes; new bindings go into a new scope. That
keeps a narrowed symbol out of every place but its branch.
-/

namespace ScriptTyping

abbrev SymbolId := Nat

abbrev ScopeId := Nat

/-- Where a symbol comes from. -/
inductive Origin
  /-- A `const` or `let` of the script. -/
  | source (declaration : NodeIndex) (isConst : Bool)
  /-- A lambda parameter; the implicit one has index 0. -/
  | parameter (lambda : NodeIndex) (index : Nat)
  /-- A value of the host. -/
  | host (ty : Ty) (isConst : Bool)
  /-- Another symbol, seen where a guard holds. -/
  | narrowed (original : SymbolId) (guard : NodeIndex)
deriving DecidableEq

structure Symbol where
  name : String
  origin : Origin
deriving DecidableEq

namespace Symbol

def host (name : String) (ty : Ty) : Symbol := ⟨name, .host ty true⟩

def mutableHost (name : String) (ty : Ty) : Symbol := ⟨name, .host ty false⟩

/-- Only constants can be narrowed. -/
def isConst (s : Symbol) : Bool :=
  match s.origin with
  | .source _ isConst => isConst
  | .host _ isConst => isConst
  | .parameter .. => true
  | .narrowed .. => true

def isNarrowed (s : Symbol) : Bool :=
  match s.origin with
  | .narrowed .. => true
  | _ => false

end Symbol

/-- The first symbol of a name counts. -/
structure Scope where
  parent : Option ScopeId
  symbols : List SymbolId
deriving DecidableEq

structure SymbolTable where
  symbols : Array Symbol := #[]
  scopes : Array Scope := #[]

namespace SymbolTable

def symbol? (t : SymbolTable) (id : SymbolId) : Option Symbol := t.symbols[id]?

def scope? (t : SymbolTable) (id : ScopeId) : Option Scope := t.scopes[id]?

/-- Adds a symbol and gives its place. -/
def addSymbol (t : SymbolTable) (s : Symbol) : SymbolId × SymbolTable :=
  (t.symbols.size, { t with symbols := t.symbols.push s })

def addScope (t : SymbolTable) (parent : Option ScopeId) (symbols : List SymbolId) :
    ScopeId × SymbolTable :=
  (t.scopes.size, { t with scopes := t.scopes.push ⟨parent, symbols⟩ })

def addSymbols (t : SymbolTable) : List Symbol → List SymbolId × SymbolTable
  | [] => ([], t)
  | s :: ss =>
    let (id, t) := t.addSymbol s
    let (ids, t) := t.addSymbols ss
    (id :: ids, t)

/-- A scope without parent that holds constants of the host. -/
def hostScope (t : SymbolTable) (values : List (String × Ty)) : ScopeId × SymbolTable :=
  let (ids, t) := t.addSymbols (values.map fun v => .host v.1 v.2)
  t.addScope none ids

/-! ## Looking up names -/

def chainWithin (t : SymbolTable) : Nat → ScopeId → List ScopeId
  | 0, _ => []
  | links + 1, id =>
    match t.scope? id with
    | none => []
    | some scope =>
      id :: match scope.parent with
        | none => []
        | some parent => t.chainWithin links parent

/-- The scope and its ancestors, innermost first, up to the first that is missing. -/
def chain (t : SymbolTable) (id : ScopeId) : List ScopeId := t.chainWithin t.scopes.size id

def isNamed (t : SymbolTable) (name : String) (id : SymbolId) : Bool :=
  match t.symbol? id with
  | some s => s.name == name
  | none => false

def resolveIn (t : SymbolTable) (name : String) (id : ScopeId) : Option SymbolId :=
  (t.scope? id).bind fun scope => scope.symbols.find? (t.isNamed name)

/-- The symbol that a name means in a scope. -/
def resolve (t : SymbolTable) (scope : ScopeId) (name : String) : Option SymbolId :=
  (t.chain scope).findSome? (t.resolveIn name)

def isConst (t : SymbolTable) (id : SymbolId) : Bool :=
  match t.symbol? id with
  | some s => s.isConst
  | none => false

/-! ## Narrowed symbols -/

def unnarrowedWithin (t : SymbolTable) : Nat → SymbolId → SymbolId
  | 0, id => id
  | links + 1, id =>
    match t.symbol? id with
    | some ⟨_, .narrowed original _⟩ => t.unnarrowedWithin links original
    | _ => id

/-- The symbol at the end of a chain of narrowings. -/
def unnarrowed (t : SymbolTable) (id : SymbolId) : SymbolId :=
  t.unnarrowedWithin t.symbols.size id

end SymbolTable

end ScriptTyping
