import ScriptTyping.Ty.Basic

/-!
# Unions in normal form

A union is built flat: unions among the members are opened, never is dropped, and of equal
members the first is kept. One member alone stands for itself, and none is never.
-/

namespace ScriptTyping.Ty

/-- The alternatives of a union; any other type is its only alternative. -/
def alternatives : Ty → List Ty
  | union members => members
  | t => [t]

def addDistinct (kept : List Ty) (t : Ty) : List Ty :=
  if kept.any (· == t) then kept else kept ++ [t]

/-- The alternatives of all members, without never and without repetitions. -/
def flatten (members : List Ty) : List Ty :=
  ((members.flatMap alternatives).filter fun t => !t.isNever).foldl addDistinct []

def ofAlternatives : List Ty → Ty
  | [] => never
  | [t] => t
  | ts => union ts

def unionOf (members : List Ty) : Ty := ofAlternatives (flatten members)

/-! ## Widening -/

mutual
/-- Literal types become their backing types, inside a union too. -/
def widen : Ty → Ty
  | literal _ backing => backing
  | union members => unionOf (widenList members)
  | t => t

def widenList : List Ty → List Ty
  | [] => []
  | t :: ts => widen t :: widenList ts
end

theorem widenList_eq_map (ts : List Ty) : widenList ts = ts.map widen := by
  induction ts <;> simp [widenList, *]

end ScriptTyping.Ty
