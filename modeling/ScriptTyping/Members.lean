import ScriptTyping.Assignable.Basic

/-!
# Finding members

On a nominal type the first level of the chain of bases that declares a name has it. On a union
a name is there only if every alternative has it once, and all of them agree on it.
-/

namespace ScriptTyping

/-- The visible members by name. A name that its level overloads has several definitions. -/
abbrev MemberTable := OrderedMap String (List Member)

namespace Definitions

/-- Adds the members of the next level. A name of an earlier level hides them. -/
def addLevel (table : MemberTable) (members : List Member) : MemberTable :=
  (members.filter fun m => !table.contains m.name).foldl
    (fun t m => t.insert m.name ((t.get? m.name).getD [] ++ [m])) table

def nominalTable (ds : Definitions) : Nat → Ty → MemberTable → MemberTable
  | levels + 1, .nominal id _ args, table =>
    let table := addLevel table (ds.membersOf id args)
    match ds.baseOf id args with
    | some base => ds.nominalTable levels base table
    | none => table
  | _, _, table => table

def agree (ds : Definitions) (a b : Member) : Bool :=
  a.isConst == b.isConst && ds.areEquivalent a.ty b.ty

/-- Keeps the names that the other table defines once and in agreement. -/
def retain (ds : Definitions) (table other : MemberTable) : MemberTable :=
  ⟨table.entries.filter fun (name, defs) =>
    match defs, other.get? name with
    | a :: _, some [b] => ds.agree a b
    | _, _ => false⟩

/-- The members that all tables agree on, as the first one has them. -/
def intersect (ds : Definitions) : List MemberTable → MemberTable
  | [] => .empty
  | first :: rest =>
    rest.foldl ds.retain ⟨first.entries.filter fun e => e.2.length == 1⟩

mutual
def memberTable (ds : Definitions) : Ty → MemberTable
  | .nominal id name args =>
    ds.nominalTable (maxBaseLinks + 1) (.nominal id name args) .empty
  | .union members => ds.intersect (ds.memberTables members)
  | _ => .empty

def memberTables (ds : Definitions) : List Ty → List MemberTable
  | [] => []
  | t :: ts => ds.memberTable t :: ds.memberTables ts
end

theorem memberTables_eq_map (ds : Definitions) (ts : List Ty) :
    ds.memberTables ts = ts.map ds.memberTable := by
  induction ts <;> simp [memberTables, *]

/-- The members of one name on the first level that has any. -/
def membersNamed? (ds : Definitions) (name : String) (id : DefId) (args : Option (List Ty)) :
    Option (List Member) :=
  match (ds.membersOf id args).filter fun m => m.name == name with
  | [] => none
  | found => some found

/-- All visible members of the name. -/
def findMembers (ds : Definitions) (t : Ty) (name : String) : List Member :=
  match t with
  | .nominal .. =>
    (ds.ascend (fun id _ args => ds.membersNamed? name id args) (maxBaseLinks + 1) t).getD []
  | .union _ => ((ds.memberTable t).get? name).getD []
  | _ => []

end Definitions

end ScriptTyping
