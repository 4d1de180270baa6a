import ScriptTyping.OrderedMap
import ScriptTyping.Ty.Union

/-! # Replacing type parameters -/

namespace ScriptTyping

/-- What replaces each type parameter, by name. -/
abbrev Substitution := OrderedMap String Ty

namespace Substitution

/-- Parameters and arguments paired by place, as far as both go; of two parameters of one name
the later counts. -/
def ofParams (params : List TypeParam) (args : List Ty) : Substitution :=
  OrderedMap.ofList ((params.map (·.name)).zip args)

/-- Leaves out the parameters that an inner declaration shadows. -/
def without (s : Substitution) (shadowed : List TypeParam) : Substitution :=
  shadowed.foldl (fun s p => s.erase p.name) s

end Substitution

namespace Ty

mutual
/-- Replaces parameters everywhere; unions are built anew. -/
def replace (s : Substitution) : Ty → Ty
  | unknown => unknown
  | never => never
  | literal value backing => literal value (replace s backing)
  | union members => unionOf (replaceList s members)
  | func params result => func (replaceParams s params) (replace s result)
  | nominal id name none => nominal id name none
  | nominal id name (some args) => nominal id name (some (replaceList s args))
  | param p => (s.get? p.name).getD (param p)

def replaceList (s : Substitution) : List Ty → List Ty
  | [] => []
  | t :: ts => replace s t :: replaceList s ts

def replaceParams (s : Substitution) : List (String × Ty) → List (String × Ty)
  | [] => []
  | (name, t) :: ps => (name, replace s t) :: replaceParams s ps
end

/-- The type under a substitution. The empty one leaves even its unions as they are. -/
def instantiate (t : Ty) (s : Substitution) : Ty :=
  if s.isEmpty then t else t.replace s

theorem replaceList_eq_map (s : Substitution) (ts : List Ty) :
    replaceList s ts = ts.map (replace s) := by
  induction ts <;> simp [replaceList, *]

theorem replaceParams_eq_map (s : Substitution) (ps : List (String × Ty)) :
    replaceParams s ps = ps.map fun p => (p.1, replace s p.2) := by
  induction ps <;> simp [replaceParams, *]

theorem instantiate_func (ps : List (String × Ty)) (r : Ty) (s : Substitution) :
    (func ps r).instantiate s = func (ps.map fun p => (p.1, p.2.instantiate s)) (r.instantiate s) := by
  unfold instantiate
  split
  · simp
  · simp [replace, replaceParams_eq_map]

/-! ## Free parameters -/

mutual
/-- The names of the parameters at every place, from left to right. -/
def paramNames : Ty → List String
  | unknown => []
  | never => []
  | literal _ backing => paramNames backing
  | union members => paramNamesList members
  | func params result => paramNamesParams params ++ paramNames result
  | nominal _ _ none => []
  | nominal _ _ (some args) => paramNamesList args
  | param p => [p.name]

def paramNamesList : List Ty → List String
  | [] => []
  | t :: ts => paramNames t ++ paramNamesList ts

def paramNamesParams : List (String × Ty) → List String
  | [] => []
  | (_, t) :: ps => paramNames t ++ paramNamesParams ps
end

/-- Each name once, where it is first seen. -/
def freeParams (t : Ty) : List String := t.paramNames.eraseDups

end Ty

end ScriptTyping
