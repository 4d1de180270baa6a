import ScriptTyping.Definitions.Basic
import ScriptTyping.SymbolTable

/-!
# What is known of a node

A node goes from unresolved to wired, typed and generated, one step at a time and never back.
What a phase needs is in the state that the phase before has left.
-/

namespace ScriptTyping

/-- The scope that a node reads names in, and the scope that it opens for children. -/
structure NodeScopes where
  scope : ScopeId
  inner : Option ScopeId
deriving DecidableEq

/-- What a node was found to mean, beside its type. -/
inductive Binding
  | none
  | symbol (id : SymbolId)
  | member (member : Member)
  /-- The callee's type with its type parameters inferred. -/
  | call (signature : Ty)
  | lambda (params : List SymbolId)
  | typeTest (asserted : Ty)
  | declaration (id : SymbolId)
  | assignment (id : SymbolId)
deriving DecidableEq

structure Resolution where
  scopes : NodeScopes
  ty : Ty
  binding : Binding
deriving DecidableEq

inductive NodeState
  | unresolved
  | wired (scopes : NodeScopes)
  | typed (resolution : Resolution)
  | generated (resolution : Resolution)
deriving DecidableEq

namespace NodeState

def name : NodeState → String
  | unresolved => "Unresolved"
  | wired _ => "ScopesAssigned"
  | typed _ => "TypeResolved"
  | generated _ => "Generated"

def scopes? : NodeState → Option NodeScopes
  | unresolved => none
  | wired scopes => some scopes
  | typed r => some r.scopes
  | generated r => some r.scopes

def resolution? : NodeState → Option Resolution
  | typed r => some r
  | generated r => some r
  | _ => none

def isGenerated : NodeState → Bool
  | generated _ => true
  | _ => false

end NodeState

/-- The states of all nodes of a tree. -/
structure NodeStates where
  states : Array NodeState

namespace NodeStates

def initial (count : Nat) : NodeStates := ⟨Array.replicate count .unresolved⟩

def size (n : NodeStates) : Nat := n.states.size

def get? (n : NodeStates) (i : NodeIndex) : Option NodeState := n.states[i]?

def stateName (n : NodeStates) (i : NodeIndex) : String :=
  ((n.get? i).map (·.name)).getD "Missing"

def set (n : NodeStates) (i : NodeIndex) (s : NodeState) : NodeStates :=
  ⟨n.states.setIfInBounds i s⟩

/-- From unresolved to wired; nothing if the node is in another state. -/
def assignScopes? (n : NodeStates) (i : NodeIndex) (scopes : NodeScopes) : Option NodeStates :=
  match n.get? i with
  | some .unresolved => some (n.set i (.wired scopes))
  | _ => none

/-- From wired to typed. -/
def record? (n : NodeStates) (i : NodeIndex) (ty : Ty) (binding : Binding) : Option NodeStates :=
  match n.get? i with
  | some (.wired scopes) => some (n.set i (.typed ⟨scopes, ty, binding⟩))
  | _ => none

/-- From typed to generated. -/
def markGenerated? (n : NodeStates) (i : NodeIndex) : Option NodeStates :=
  match n.get? i with
  | some (.typed r) => some (n.set i (.generated r))
  | _ => none

def scopes? (n : NodeStates) (i : NodeIndex) : Option NodeScopes := (n.get? i).bind (·.scopes?)

def resolution? (n : NodeStates) (i : NodeIndex) : Option Resolution :=
  (n.get? i).bind (·.resolution?)

def type? (n : NodeStates) (i : NodeIndex) : Option Ty := (n.resolution? i).map (·.ty)

def isGenerated (n : NodeStates) (i : NodeIndex) : Bool :=
  ((n.get? i).map (·.isGenerated)).getD false

/-! ## Reading after writing -/

theorem get?_set_self {n : NodeStates} {i : NodeIndex} {old : NodeState} (h : n.get? i = some old)
    (s : NodeState) : (n.set i s).get? i = some s := by
  have hlt : i < n.states.size := (Array.getElem?_eq_some_iff.mp h).choose
  simp only [get?, set]
  exact Array.getElem?_setIfInBounds_self_of_lt hlt

theorem get?_set_of_ne (n : NodeStates) {i j : NodeIndex} (h : i ≠ j) (s : NodeState) :
    (n.set i s).get? j = n.get? j := by
  simp only [get?, set]
  exact Array.getElem?_setIfInBounds_ne h

theorem resolution?_set_typed {n : NodeStates} {i : NodeIndex} {old : NodeState}
    (h : n.get? i = some old) (r : Resolution) (j : NodeIndex) :
    (n.set i (.typed r)).resolution? j = if i = j then some r else n.resolution? j := by
  unfold resolution?
  split
  · rename_i heq
    rw [← heq, get?_set_self h]
    rfl
  · rename_i hne
    rw [get?_set_of_ne n hne]

theorem scopes?_set_of_ne (n : NodeStates) {i j : NodeIndex} (h : i ≠ j) (s : NodeState) :
    (n.set i s).scopes? j = n.scopes? j := by
  simp only [scopes?, get?_set_of_ne n h]

end NodeStates

end ScriptTyping
