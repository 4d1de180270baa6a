import ScriptTyping.Definitions.Generic

/-!
# Assignability

Never goes everywhere, and a union goes where all of its alternatives go. Otherwise the target
decides; a union as target needs one alternative that accepts. The unknown type is related to
itself alone.
-/

namespace ScriptTyping

/-- A question of more than 64 nested steps is answered with no. -/
def maxRelationDepth : Nat := 64

namespace Definitions

/-- Both directions. Of two equal types one direction says it all, which keeps a deep nest of
invariant arguments from doubling the work at every level. -/
def relatesBoth (check : Ty → Ty → Bool) (s t : Ty) : Bool :=
  check s t && (decide (s = t) || check t s)

@[simp] theorem relatesBoth_eq (check : Ty → Ty → Bool) (s t : Ty) :
    relatesBoth check s t = (check s t && check t s) := by
  by_cases h : s = t
  · simp [relatesBoth, h]
  · simp [relatesBoth, h]

/-- One type argument against another. -/
def relatesArg (check : Ty → Ty → Bool) : Variance → Ty → Ty → Bool
  | .output, s, t => check s t
  | .input, s, t => check t s
  | .invariant, s, t => relatesBoth check s t

/-- Type arguments compared place by place as the variances say, as far as both lists go. A
missing variance is invariant. -/
def relatesArgs (check : Ty → Ty → Bool) : List Variance → List Ty → List Ty → Bool
  | variances, s :: ss, t :: ts =>
    relatesArg check (variances.headD .invariant) s t && relatesArgs check variances.tail ss ts
  | _, _, _ => true

def variances (ds : Definitions) (id : DefId) : List Variance :=
  ((ds.get? id).map fun d => d.params.map (·.variance)).getD []

/-- A nominal type against an ancestor of it by name. A target without arguments accepts any;
otherwise the arguments have to be as many. -/
def relatesNominal (ds : Definitions) (check : Ty → Ty → Bool) (source : Ty) (id : DefId)
    (name : String) (args : Option (List Ty)) : Bool :=
  match ds.ancestorArgs? name source, args with
  | none, _ => false
  | some _, none => true
  | some none, some _ => false
  | some (some sourceArgs), some targetArgs =>
    sourceArgs.length == targetArgs.length &&
      relatesArgs check (ds.variances id) sourceArgs targetArgs

/-- One step of the relation; `check` answers for the parts. A function may ignore parameters that
the target passes. -/
def relates (ds : Definitions) (check : Ty → Ty → Bool) (source target : Ty) : Bool :=
  match source, target with
  | .never, _ => true
  | _, .never => false
  | .unknown, .unknown => true
  | .unknown, _ => false
  | _, .unknown => false
  | .union members, _ => members.all fun m => check m target
  | _, .union members => members.any fun m => check source m
  | .nominal .., .nominal id name args => ds.relatesNominal check source id name args
  | .literal _ backing, .nominal .. => check backing target
  | .func ps r, .func ps' r' =>
    check r r' && ps.length ≤ ps'.length && (ps.zip ps').all fun p => check p.2.2 p.1.2
  | .literal v _, .literal v' _ => v.same v'
  | .param p, .param p' => p.name == p'.name
  | _, _ => false

/-- The relation with at most `depth` nested steps. -/
def assignableWithin (ds : Definitions) : Nat → Ty → Ty → Bool
  | 0 => fun _ _ => false
  | depth + 1 => ds.relates (ds.assignableWithin depth)

/-- Whether a value of type `source` may stand where `target` is expected. -/
def isAssignable (ds : Definitions) (source target : Ty) : Bool :=
  ds.assignableWithin maxRelationDepth source target

def areEquivalent (ds : Definitions) (a b : Ty) : Bool :=
  ds.isAssignable a b && ds.isAssignable b a

/-- The more general of the two, or their union. -/
def commonSupertype (ds : Definitions) (a b : Ty) : Ty :=
  if a.isUnknown || b.isUnknown then .unknown
  else if ds.isAssignable a b then b
  else if ds.isAssignable b a then a
  else Ty.unionOf [a, b]

end Definitions

end ScriptTyping
