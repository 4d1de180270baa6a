import ScriptTyping.Constant
import ScriptTyping.Span

/-!
# Nodes of a script

A node holds its own text and the indices of its children, never what is later found out about it.
-/

namespace ScriptTyping

/-- The place of a node in its tree. -/
abbrev NodeIndex := Nat

/-- The index that stands for no node. -/
def NodeIndex.absent : NodeIndex := 4294967295

/-- A parameter is not a node of its own; its ascription is a child of the lambda. -/
structure LambdaParam where
  name : String
  ascription : Option NodeIndex
  span : Span
deriving DecidableEq

inductive NodeKind
  | identifier (name : String)
  | literal (value : Constant)
  /-- `[a, b, c]` -/
  | collection (elements : List NodeIndex)
  /-- `if (condition) thenBranch else elseBranch` -/
  | conditional (condition thenBranch : NodeIndex) (elseBranch : Option NodeIndex)
  /-- `callee(arguments) { trailing }` -/
  | invocation (callee : NodeIndex) (arguments : List NodeIndex) (trailing : Option NodeIndex)
  /-- `object.member` -/
  | memberAccess (object : NodeIndex) (member : String)
  /-- `{ a, b -> body }`, or `{ body }` with the implicit parameter -/
  | lambda (params : List LambdaParam) (body : NodeIndex)
  /-- `operand is Target` -/
  | typeTest (operand target : NodeIndex)
  /-- `left and right` -/
  | conjunction (left right : NodeIndex)
  | block (statements : List NodeIndex)
  /-- `const name: Ascription = initializer`, or `let` -/
  | declaration (name : String) (isConst : Bool) (ascription : Option NodeIndex)
      (initializer : NodeIndex)
  /-- `target = value` -/
  | assignment (target value : NodeIndex)
  /-- `Name` or `Name<A, B>` -/
  | typeRef (name : String) (args : List NodeIndex)
deriving DecidableEq

namespace NodeKind

/-- The children in the order of the text. -/
def children : NodeKind → List NodeIndex
  | identifier _ => []
  | literal _ => []
  | collection elements => elements
  | conditional condition thenBranch elseBranch => condition :: thenBranch :: elseBranch.toList
  | invocation callee arguments trailing => callee :: (arguments ++ trailing.toList)
  | memberAccess object _ => [object]
  | lambda params body => params.filterMap (·.ascription) ++ [body]
  | typeTest operand target => [operand, target]
  | conjunction left right => [left, right]
  | block statements => statements
  | declaration _ _ ascription initializer => ascription.toList ++ [initializer]
  | assignment target value => [target, value]
  | typeRef _ args => args

def name : NodeKind → String
  | identifier _ => "Identifier"
  | literal _ => "Literal"
  | collection _ => "Collection"
  | conditional .. => "If"
  | invocation .. => "Invocation"
  | memberAccess .. => "MemberAccess"
  | lambda .. => "Lambda"
  | typeTest .. => "Is"
  | conjunction .. => "And"
  | block _ => "Block"
  | declaration .. => "Declaration"
  | assignment .. => "Assignment"
  | typeRef .. => "TypeRef"

def isTypeRef : NodeKind → Bool
  | typeRef .. => true
  | _ => false

def isLambda : NodeKind → Bool
  | lambda .. => true
  | _ => false

/-- Declarations and assignments have no value. -/
def isStatement : NodeKind → Bool
  | declaration .. => true
  | assignment .. => true
  | _ => false

end NodeKind

structure Node where
  kind : NodeKind
  span : Span
deriving DecidableEq

end ScriptTyping
