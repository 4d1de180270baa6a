import ScriptTyping.Assignable.Basic

/-!
# Narrowing

The type of a constant where a guard has asserted another type of it.
-/

namespace ScriptTyping.Definitions

mutual
/-- The declared type if it is within the asserted one, the asserted type if it is more specific,
the alternatives of a union that overlap, each narrowed, and never if nothing overlaps. -/
def narrow (ds : Definitions) (asserted : Ty) (declared : Ty) : Ty :=
  if declared.isUnknown then asserted
  else if asserted.isUnknown then declared
  else if ds.isAssignable declared asserted then declared
  else if ds.isAssignable asserted declared then asserted
  else match declared with
    | .union members => Ty.unionOf ((ds.narrowEach asserted members).filter fun t => !t.isNever)
    | _ => .never

def narrowEach (ds : Definitions) (asserted : Ty) : List Ty → List Ty
  | [] => []
  | t :: ts => ds.narrow asserted t :: ds.narrowEach asserted ts
end

theorem narrowEach_eq_map (ds : Definitions) (asserted : Ty) (ts : List Ty) :
    ds.narrowEach asserted ts = ts.map (ds.narrow asserted) := by
  induction ts <;> simp [narrowEach, *]

end ScriptTyping.Definitions
