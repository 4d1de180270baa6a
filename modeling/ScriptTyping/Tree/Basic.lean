import ScriptTyping.Tree.Node

/-!
# Trees

The nodes of a script stand in one array and name each other by index. A child may be shared, or
may be missing from the array; a tree is never cyclic.
-/

namespace ScriptTyping

structure Tree where
  nodes : Array Node := #[]

namespace Tree

def size (t : Tree) : Nat := t.nodes.size

def isEmpty (t : Tree) : Bool := t.nodes.isEmpty

def push (t : Tree) (kind : NodeKind) (span : Span) : Tree := ⟨t.nodes.push ⟨kind, span⟩⟩

def get? (t : Tree) (i : NodeIndex) : Option Node :=
  if i = NodeIndex.absent then none else t.nodes[i]?

def kind? (t : Tree) (i : NodeIndex) : Option NodeKind := (t.get? i).map (·.kind)

/-- A missing node has the empty span. -/
def span (t : Tree) (i : NodeIndex) : Span := ((t.get? i).map (·.span)).getD Span.empty

def children (t : Tree) (i : NodeIndex) : List NodeIndex :=
  ((t.kind? i).map (·.children)).getD []

def identifier? (t : Tree) (i : NodeIndex) : Option String :=
  match t.kind? i with
  | some (.identifier name) => some name
  | _ => none

def isLambda (t : Tree) (i : NodeIndex) : Bool := ((t.kind? i).map (·.isLambda)).getD false

def isStatement (t : Tree) (i : NodeIndex) : Bool := ((t.kind? i).map (·.isStatement)).getD false

/-! ## Walking a subtree -/

/-- The walk: takes the top of the stack and puts its children there in its place. Missing nodes
are dropped. Each step takes one entry. -/
def walk (t : Tree) : Nat → List NodeIndex → List NodeIndex
  | 0, _ => []
  | _ + 1, [] => []
  | steps + 1, i :: rest =>
    match t.get? i with
    | none => t.walk steps rest
    | some node => i :: t.walk steps (node.kind.children ++ rest)

/-- How many entries the walk from `i` takes, if no path below `i` has more than `depth` nodes. -/
def entries (t : Tree) : Nat → NodeIndex → Nat
  | 0, _ => 1
  | depth + 1, i => 1 + (t.children i).foldr (fun c steps => t.entries depth c + steps) 0

/-- The node and everything below it, each parent before its children, children in the order of
the text. A path has at most as many nodes as the tree. -/
def descendants (t : Tree) (root : NodeIndex) : List NodeIndex :=
  t.walk (t.entries (t.size + 1) root) [root]

end Tree

end ScriptTyping
