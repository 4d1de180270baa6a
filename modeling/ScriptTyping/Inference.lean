import ScriptTyping.Assignable.Basic

/-!
# Inferring type arguments

A parameter's type and an argument's type are walked side by side. A free type parameter that is
met is bound to the part of the argument; met again, to a common supertype.
-/

namespace ScriptTyping

structure Inference where
  free : List String
  bindings : Substitution := .empty

namespace Inference

def bind (ds : Definitions) (i : Inference) (name : String) (argument : Ty) : Inference :=
  let bound := match i.bindings.get? name with
    | some earlier => ds.commonSupertype earlier argument
    | none => argument
  { i with bindings := i.bindings.insert name bound }

/-- An unknown argument says nothing, and neither does anything more than 64 steps inside. -/
def inferWithin (ds : Definitions) : Nat → Ty → Ty → Inference → Inference
  | 0, _, _, i => i
  | depth + 1, parameter, argument, i =>
    match parameter, argument with
    | _, .unknown => i
    | .param p, _ => if i.free.contains p.name then i.bind ds p.name argument else i
    | .func ps r, .func ps' r' =>
      inferWithin ds depth r r'
        ((ps.zip ps').foldl (fun i p => inferWithin ds depth p.1.2 p.2.2 i) i)
    | .nominal _ name (some args), .nominal .. =>
      match ds.ancestorArgs? name argument with
      | some (some args') =>
        (args.zip args').foldl (fun i p => inferWithin ds depth p.1 p.2 i) i
      | _ => i
    | _, _ => i

def infer (ds : Definitions) (i : Inference) (parameter argument : Ty) : Inference :=
  inferWithin ds (maxRelationDepth + 1) parameter argument i

/-- The bindings, with unknown for a parameter that no argument has touched. -/
def finish (i : Inference) : Substitution :=
  i.free.foldl (fun s name => if s.contains name then s else s.insert name .unknown) i.bindings

end Inference

end ScriptTyping
