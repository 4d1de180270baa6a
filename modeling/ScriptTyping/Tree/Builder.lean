import ScriptTyping.Tree.Basic

/-!
# Trees built without a text

A builder gives every node and every lambda parameter a span of its own, all on one line: as wide
as the text that the node itself would take, and one column apart. Columns are counted in 32 bits,
and the count starts again when it runs over.
-/

namespace ScriptTyping

structure Builder where
  tree : Tree := {}
  offset : UInt32 := 0

namespace Builder

/-- The width of a text in UTF-8 bytes. -/
def width (text : String) : Nat := text.utf8ByteSize

/-- The columns of a text of this width; an empty text still takes one. -/
def columns (width : Nat) : UInt32 := max width.toUInt32 1

def position (column : UInt32) : Position := ⟨column.toNat, 1, column.toNat⟩

/-- The next span. -/
def span (b : Builder) (width : Nat) : Span :=
  ⟨position b.offset, position (b.offset + columns width)⟩

def advance (b : Builder) (width : Nat) : Builder :=
  { b with offset := b.offset + (columns width + 1) }

def add (b : Builder) (width : Nat) (kind : NodeKind) : Builder :=
  { b.advance width with tree := b.tree.push kind (b.span width) }

/-- How wide the node's own text is: its name, keyword or brackets, without its children. A
declaration takes the width of `const`, whichever its keyword is; `letDeclaration` is narrower. -/
def ownWidth : NodeKind → Nat
  | .identifier name => width name
  | .literal (.value (.number n)) => width n.text
  | .literal (.value (.text s)) => width s + 2
  | .literal (.value (.boolean true)) => 4
  | .literal (.value (.boolean false)) => 5
  | .literal .null => 4
  | .collection _ => 2
  | .conditional .. => 2
  | .invocation .. => 2
  | .memberAccess _ member => width member + 1
  | .lambda .. => 2
  | .typeTest .. => 2
  | .conjunction .. => 3
  | .block _ => 2
  | .declaration name .. => width name + 6
  | .assignment .. => 1
  | .typeRef name _ => width name

def node (b : Builder) (kind : NodeKind) : Builder := b.add (ownWidth kind) kind

def letDeclaration (b : Builder) (name : String) (initializer : NodeIndex) : Builder :=
  b.add (width name + 4) (.declaration name false none initializer)

/-- A type reference that is written with its brackets, even around no arguments. -/
def genericTypeRef (b : Builder) (name : String) (args : List NodeIndex) : Builder :=
  b.add (width name + 2) (.typeRef name args)

/-- A parameter takes a span, but it is no node. -/
def param (b : Builder) (name : String) (ascription : Option NodeIndex) : Builder × LambdaParam :=
  (b.advance (width name), ⟨name, ascription, b.span (width name)⟩)

/-- The parameters take their spans first, in order. -/
def params (b : Builder) : List (String × Option NodeIndex) → Builder × List LambdaParam
  | [] => (b, [])
  | (name, ascription) :: rest =>
    let (b, param) := b.param name ascription
    let (b, rest) := b.params rest
    (b, param :: rest)

def lambda (b : Builder) (parameters : List (String × Option NodeIndex)) (body : NodeIndex) :
    Builder :=
  let (b, parameters) := b.params parameters
  b.node (.lambda parameters body)

end Builder

end ScriptTyping
