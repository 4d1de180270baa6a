import ScriptTyping.Definitions.Builtin
import ScriptTyping.Ty.Text

/-!
# Generic definitions at their arguments

Binding a generic definition only adds the arguments to the type. Its members and its base are
instantiated when they are asked for.
-/

namespace ScriptTyping

inductive BindError
  | arity (name : String) (expected actual : Nat)
  | notGeneric (name : String)
  | unknownDefinition (id : DefId)
deriving DecidableEq

def BindError.message : BindError → String
  | arity name expected actual =>
    s!"type '{name}' expects {expected} type argument(s), got {actual}"
  | notGeneric name => s!"type '{name}' is not an unbound generic definition"
  | unknownDefinition id => s!"definition DefId({id}) is not registered in this store"

namespace Definitions

/-- Binds a generic type that has no arguments yet. -/
def bind (ds : Definitions) (generic : Ty) (args : List Ty) : Except BindError Ty :=
  match generic with
  | .nominal id name bound =>
    match ds.get? id with
    | none => .error (.unknownDefinition id)
    | some d =>
      if !d.isGeneric || bound.isSome then .error (.notGeneric name)
      else if d.arity ≠ args.length then .error (.arity d.name d.arity args.length)
      else .ok (.nominal id name (some args))
  | t => .error (.notGeneric t.text)

/-- The definition's parameters at the given arguments. -/
def argSubstitution (ds : Definitions) (id : DefId) (args : Option (List Ty)) : Substitution :=
  match ds.get? id, args with
  | some d, some args => .ofParams d.params args
  | _, _ => .empty

/-- The members that the definition itself declares. -/
def membersOf (ds : Definitions) (id : DefId) (args : Option (List Ty)) : List Member :=
  match ds.get? id with
  | none => []
  | some d => d.members.map fun m => m.instantiate (ds.argSubstitution id args)

def baseOf (ds : Definitions) (id : DefId) (args : Option (List Ty)) : Option Ty :=
  match ds.get? id with
  | none => none
  | some d => d.base.map fun base => base.instantiate (ds.argSubstitution id args)

/-! ## The chain of bases -/

/-- A chain of bases is followed for at most 64 links, since it may be cyclic. -/
def maxBaseLinks : Nat := 64

/-- Looks at the type, then at its base, and so on, until `look` gives an answer. -/
def ascend {β : Type} (ds : Definitions) (look : DefId → String → Option (List Ty) → Option β) :
    Nat → Ty → Option β
  | levels + 1, .nominal id name args =>
    match look id name args with
    | some found => some found
    | none =>
      match ds.baseOf id args with
      | some base => ds.ascend look levels base
      | none => none
  | _, _ => none

/-- The arguments at which the type has `name` as an ancestor, itself included. -/
def ancestorArgs? (ds : Definitions) (name : String) (t : Ty) : Option (Option (List Ty)) :=
  ds.ascend (fun _ n args => if n = name then some args else none) (maxBaseLinks + 1) t

end Definitions

end ScriptTyping
