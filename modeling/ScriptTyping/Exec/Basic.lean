import ScriptTyping.Definitions.Basic
import ScriptTyping.SymbolTable

/-!
# The executable form

A tree of its own: every name is a host value or a local binding, every member is found, every
node has its type and its place in the script.
-/

namespace ScriptTyping

structure ExecParam where
  symbol : SymbolId
  name : String
  ty : Ty

/-- The type of a node and its place. -/
structure Site where
  ty : Ty
  span : Span

inductive Exec
  | constant (site : Site) (value : Constant)
  | collection (site : Site) (elements : List Exec)
  | hostValue (site : Site) (name : String)
  /-- A declaration or a lambda parameter of the script. -/
  | localValue (site : Site) (symbol : SymbolId) (name : String)
  | conditional (site : Site) (condition thenBranch elseBranch : Exec)
  | invoke (site : Site) (callee : Exec) (arguments : List Exec) (signature : Ty)
  | memberRead (site : Site) (object : Exec) (member : Member)
  /-- The value taken at this node's type: a narrowed read, or a member of a bound generic. -/
  | convert (site : Site) (value : Exec)
  | lambda (site : Site) (params : List ExecParam) (body : Exec)
  | typeTest (site : Site) (value : Exec) (target : Ty)
  | conjunction (site : Site) (left right : Exec)
  | block (site : Site) (statements : List Exec)
  | declare (site : Site) (symbol : SymbolId) (name : String) (isConst : Bool) (value : Exec)
  | assign (site : Site) (target value : Exec)

namespace Exec

def site : Exec → Site
  | constant s .. => s
  | collection s .. => s
  | hostValue s .. => s
  | localValue s .. => s
  | conditional s .. => s
  | invoke s .. => s
  | memberRead s .. => s
  | convert s .. => s
  | lambda s .. => s
  | typeTest s .. => s
  | conjunction s .. => s
  | block s .. => s
  | declare s .. => s
  | assign s .. => s

/-- The children in the order of evaluation. -/
def children : Exec → List Exec
  | constant .. => []
  | collection _ elements => elements
  | hostValue .. => []
  | localValue .. => []
  | conditional _ condition thenBranch elseBranch => [condition, thenBranch, elseBranch]
  | invoke _ callee arguments _ => callee :: arguments
  | memberRead _ object _ => [object]
  | convert _ value => [value]
  | lambda _ _ body => [body]
  | typeTest _ value _ => [value]
  | conjunction _ left right => [left, right]
  | block _ statements => statements
  | declare _ _ _ _ value => [value]
  | assign _ target value => [target, value]

mutual
/-- The number of nodes. -/
def size : Exec → Nat
  | constant .. => 1
  | collection _ elements => 1 + sizes elements
  | hostValue .. => 1
  | localValue .. => 1
  | conditional _ condition thenBranch elseBranch =>
    1 + (size condition + size thenBranch + size elseBranch)
  | invoke _ callee arguments _ => 1 + (size callee + sizes arguments)
  | memberRead _ object _ => 1 + size object
  | convert _ value => 1 + size value
  | lambda _ _ body => 1 + size body
  | typeTest _ value _ => 1 + size value
  | conjunction _ left right => 1 + (size left + size right)
  | block _ statements => 1 + sizes statements
  | declare _ _ _ _ value => 1 + size value
  | assign _ target value => 1 + (size target + size value)

def sizes : List Exec → Nat
  | [] => 0
  | e :: es => size e + sizes es
end

end Exec

end ScriptTyping
