import ScriptTyping.Constant

/-!
# Types

A nominal type names a definition and carries its type arguments; the members live in the
definition. Without arguments it is a plain type, or a generic one that is not bound yet.
-/

namespace ScriptTyping

/-- The place of a definition among the definitions. -/
abbrev DefId := Nat

/-- How the instances of a generic type follow its arguments. -/
inductive Variance
  | input
  | output
  | invariant
deriving DecidableEq

structure TypeParam where
  name : String
  variance : Variance
deriving DecidableEq

inductive Ty
  /-- Not found out, because of an error. -/
  | unknown
  | never
  | literal (value : LiteralValue) (backing : Ty)
  | union (members : List Ty)
  /-- Parameters match by place; their names are only shown. -/
  | func (params : List (String × Ty)) (result : Ty)
  | nominal (id : DefId) (name : String) (args : Option (List Ty))
  | param (param : TypeParam)

namespace Ty

/-- Induction that goes through the lists inside a type. -/
@[elab_as_elim, induction_eliminator]
theorem induct {motive : Ty → Prop} (unknown : motive .unknown) (never : motive .never)
    (literal : ∀ value backing, motive backing → motive (.literal value backing))
    (union : ∀ members, (∀ t ∈ members, motive t) → motive (.union members))
    (func : ∀ params result, (∀ p ∈ params, motive p.2) → motive result →
      motive (.func params result))
    (nominal : ∀ id name args, (∀ ts, args = some ts → ∀ t ∈ ts, motive t) →
      motive (.nominal id name args))
    (param : ∀ p, motive (.param p)) (t : Ty) : motive t := by
  refine @Ty.rec motive (fun ts => ∀ t ∈ ts, motive t) (fun ps => ∀ p ∈ ps, motive p.2)
    (fun args => ∀ ts, args = some ts → ∀ t ∈ ts, motive t) (fun p => motive p.2)
    unknown never literal union func nominal param ?_ ?_ ?_ ?_ ?_ ?_ ?_ t
  · simp
  · intro t ts ht hts x hx
    rcases List.mem_cons.mp hx with rfl | hx
    · exact ht
    · exact hts x hx
  · simp
  · intro p ps hp hps x hx
    rcases List.mem_cons.mp hx with rfl | hx
    · exact hp
    · exact hps x hx
  · simp
  · intro ts hts us h
    cases h
    exact hts
  · intro _ t ht
    exact ht

/-! ## Equality of types -/

mutual
/-- Structural equality, with `eq` for the values of literals. -/
def sameBy (eq : LiteralValue → LiteralValue → Bool) : Ty → Ty → Bool
  | unknown, unknown => true
  | never, never => true
  | literal v b, literal v' b' => eq v v' && sameBy eq b b'
  | union ts, union ts' => sameList eq ts ts'
  | func ps r, func ps' r' => sameParams eq ps ps' && sameBy eq r r'
  | nominal i n none, nominal i' n' none => i == i' && n == n'
  | nominal i n (some ts), nominal i' n' (some ts') => i == i' && n == n' && sameList eq ts ts'
  | param p, param p' => p == p'
  | _, _ => false

def sameList (eq : LiteralValue → LiteralValue → Bool) : List Ty → List Ty → Bool
  | [], [] => true
  | t :: ts, t' :: ts' => sameBy eq t t' && sameList eq ts ts'
  | _, _ => false

def sameParams (eq : LiteralValue → LiteralValue → Bool) :
    List (String × Ty) → List (String × Ty) → Bool
  | [], [] => true
  | (n, t) :: ps, (n', t') :: ps' => n == n' && sameBy eq t t' && sameParams eq ps ps'
  | _, _ => false
end

/-- Two types are the same if their literals have equal values: a type with a NaN literal differs
from itself, and the two zeros are one. -/
instance : BEq Ty := ⟨sameBy LiteralValue.same⟩

theorem sameList_iff {eq : LiteralValue → LiteralValue → Bool} {ts : List Ty}
    (h : ∀ t ∈ ts, ∀ u, sameBy eq t u = true ↔ t = u) (us : List Ty) :
    sameList eq ts us = true ↔ ts = us := by
  induction ts generalizing us with
  | nil => cases us <;> simp [sameList]
  | cons t ts ih =>
    cases us with
    | nil => simp [sameList]
    | cons u us =>
      simp [sameList, h t (by simp) u, ih (fun x hx => h x (by simp [hx])) us]

theorem sameParams_iff {eq : LiteralValue → LiteralValue → Bool} {ps : List (String × Ty)}
    (h : ∀ p ∈ ps, ∀ u, sameBy eq p.2 u = true ↔ p.2 = u) (qs : List (String × Ty)) :
    sameParams eq ps qs = true ↔ ps = qs := by
  induction ps generalizing qs with
  | nil => cases qs <;> simp [sameParams]
  | cons p ps ih =>
    cases qs with
    | nil => simp [sameParams]
    | cons q qs =>
      have hp := h p (by simp) q.2
      simp [sameParams, hp, ih (fun x hx => h x (by simp [hx])) qs, Prod.ext_iff]

theorem sameBy_decide_iff (t u : Ty) : sameBy (fun v w => decide (v = w)) t u = true ↔ t = u := by
  induction t generalizing u with
  | unknown => cases u <;> simp [sameBy]
  | never => cases u <;> simp [sameBy]
  | literal v b ih => cases u <;> simp [sameBy, ih]
  | union ts ih => cases u <;> simp [sameBy, sameList_iff ih]
  | func ps r ihp ihr => cases u <;> simp [sameBy, sameParams_iff ihp, ihr]
  | nominal i n args ih =>
    cases u with
    | nominal i' n' args' =>
      cases args with
      | none => cases args' <;> simp [sameBy]
      | some ts => cases args' <;> simp [sameBy, sameList_iff (ih ts rfl), and_assoc]
    | _ => cases args <;> simp [sameBy]
  | param p => cases u <;> simp [sameBy]

instance : DecidableEq Ty := fun t u => decidable_of_iff _ (sameBy_decide_iff t u)

/-! ## Shapes -/

def isUnknown : Ty → Bool
  | unknown => true
  | _ => false

def isNever : Ty → Bool
  | never => true
  | _ => false

def isFunc : Ty → Bool
  | func .. => true
  | _ => false

mutual
/-- Whether the unknown type occurs anywhere inside. -/
def containsUnknown : Ty → Bool
  | unknown => true
  | never => false
  | literal _ backing => containsUnknown backing
  | union members => anyUnknown members
  | func params result => containsUnknown result || anyParamUnknown params
  | nominal _ _ none => false
  | nominal _ _ (some args) => anyUnknown args
  | param _ => false

def anyUnknown : List Ty → Bool
  | [] => false
  | t :: ts => containsUnknown t || anyUnknown ts

def anyParamUnknown : List (String × Ty) → Bool
  | [] => false
  | (_, t) :: ps => containsUnknown t || anyParamUnknown ps
end

end Ty

end ScriptTyping
