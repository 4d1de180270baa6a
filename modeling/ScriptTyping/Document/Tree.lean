import ScriptTyping.Document.Diagnostic
import ScriptTyping.Tree.Basic

/-! # Trees as data -/

namespace ScriptTyping

def Constant.toDocument : Constant → Document
  | .value (.number n) => .record [("Number", .real n)]
  | .value (.text s) => .record [("String", .text s)]
  | .value (.boolean b) => .record [("Boolean", .boolean b)]
  | .null => .text "Null"

def LambdaParam.toDocument (p : LambdaParam) : Document :=
  .record
    [("name", .text p.name), ("annotation", .optional .natural p.ascription),
     ("span", p.span.toDocument)]

namespace NodeKind

def indices (nodes : List NodeIndex) : Document := .list (nodes.map .natural)

/-- What stands under the name of the kind. -/
def content : NodeKind → Document
  | identifier name => .record [("name", .text name)]
  | literal value => value.toDocument
  | collection elements => .record [("elements", indices elements)]
  | conditional condition thenBranch elseBranch =>
    .record
      [("condition", .natural condition), ("then_branch", .natural thenBranch),
       ("else_branch", .optional .natural elseBranch)]
  | invocation callee arguments trailing =>
    .record
      [("callee", .natural callee), ("arguments", indices arguments),
       ("trailing_lambda", .optional .natural trailing)]
  | memberAccess object member =>
    .record [("object", .natural object), ("member", .text member)]
  | lambda params body =>
    .record [("parameters", .list (params.map (·.toDocument))), ("body", .natural body)]
  | typeTest operand target =>
    .record [("operand", .natural operand), ("target", .natural target)]
  | conjunction left right => .record [("left", .natural left), ("right", .natural right)]
  | block statements => .record [("statements", indices statements)]
  | declaration name isConst ascription initializer =>
    .record
      [("name", .text name), ("is_const", .boolean isConst),
       ("annotation", .optional .natural ascription), ("initializer", .natural initializer)]
  | assignment target value =>
    .record [("target", .natural target), ("value", .natural value)]
  | typeRef name args => .record [("name", .text name), ("type_arguments", indices args)]

def toDocument (kind : NodeKind) : Document := .record [(kind.name, kind.content)]

end NodeKind

def Node.toDocument (n : Node) : Document :=
  .record [("kind", n.kind.toDocument), ("span", n.span.toDocument)]

def Tree.toDocument (t : Tree) : Document :=
  .record [("nodes", .list (t.nodes.toList.map (·.toDocument)))]

end ScriptTyping
