import ScriptTyping.Ty.Substitution

/-!
# Definitions of nominal types

A definition is reserved first and filled in later, so that its members can mention it.
-/

namespace ScriptTyping

/-- A property or method. `params` are a method's own type parameters; `owner` names the definition
that the member was declared in. -/
structure Member where
  name : String
  ty : Ty
  isConst : Bool
  params : List TypeParam
  owner : Option String
deriving DecidableEq

namespace Member

def property (name : String) (ty : Ty) : Member := ⟨name, ty, true, [], none⟩

def mutableProperty (name : String) (ty : Ty) : Member := ⟨name, ty, false, [], none⟩

def method (name : String) (params : List TypeParam) (ty : Ty) : Member :=
  ⟨name, ty, true, params, none⟩

/-- The member under a substitution, which does not reach the member's own parameters. -/
def instantiate (m : Member) (s : Substitution) : Member :=
  { m with ty := m.ty.instantiate (s.without m.params) }

end Member

/-- The base is a type over the definition's own parameters. -/
structure Definition where
  name : String
  base : Option Ty
  members : List Member
  params : List TypeParam
deriving DecidableEq

namespace Definition

def isGeneric (d : Definition) : Bool := !d.params.isEmpty

def arity (d : Definition) : Nat := d.params.length

end Definition

structure Definitions where
  defs : Array Definition := #[]

namespace Definitions

def size (ds : Definitions) : Nat := ds.defs.size

def get? (ds : Definitions) (id : DefId) : Option Definition := ds.defs[id]?

/-- Adds a definition without base and members; its place is the old size. -/
def reserve (ds : Definitions) (name : String) (params : List TypeParam) : Definitions :=
  ⟨ds.defs.push ⟨name, none, [], params⟩⟩

/-- Fills in base and members, and makes the definition their owner. -/
def define (ds : Definitions) (id : DefId) (base : Option Ty) (members : List Member) :
    Definitions :=
  match ds.get? id with
  | none => ds
  | some d =>
    let members := members.map fun m => { m with owner := some d.name }
    ⟨ds.defs.setIfInBounds id { d with base := base, members := members }⟩

/-- A definition without parameters, in one step. -/
def register (ds : Definitions) (name : String) (base : Option Ty) (members : List Member) :
    Definitions :=
  (ds.reserve name []).define ds.size base members

/-- The definition as a type without arguments. -/
def unbound (ds : Definitions) (id : DefId) : Ty :=
  .nominal id (((ds.get? id).map (·.name)).getD "<invalid>") none

/-- The definition bound to its own parameters. -/
def selfInstance (ds : Definitions) (id : DefId) : Ty :=
  match ds.get? id with
  | none => .unknown
  | some d =>
    .nominal id d.name (if d.isGeneric then some (d.params.map Ty.param) else none)

end Definitions

end ScriptTyping
