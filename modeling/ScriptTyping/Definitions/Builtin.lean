import ScriptTyping.Definitions.Basic

/-! # Built-in definitions -/

namespace ScriptTyping

namespace Ty

def number : Ty := .nominal 0 "number" none

def boolean : Ty := .nominal 1 "boolean" none

def null : Ty := .nominal 2 "null" none

def string : Ty := .nominal 3 "string" none

/-- The list type before it is bound. -/
def list : Ty := .nominal 4 "List" none

def listOf (element : Ty) : Ty := .nominal 4 "List" (some [element])

/-- The element type of a bound list. -/
def listElement? : Ty → Option Ty
  | .nominal 4 _ (some args) => args.head?
  | _ => none

/-- The literal type of a value, backed by the built-in type of its kind. -/
def ofLiteral (value : LiteralValue) : Ty :=
  match value with
  | .number _ => .literal value number
  | .text _ => .literal value string
  | .boolean _ => .literal value boolean

def ofConstant : Constant → Ty
  | .value v => ofLiteral v
  | .null => null

end Ty

namespace Definitions

def listMembers : List Member :=
  let t : TypeParam := ⟨"T", .output⟩
  let u : TypeParam := ⟨"U", .invariant⟩
  let item (ty result : Ty) : Ty := .func [("item", ty)] result
  [ .property "length" Ty.number,
    .method "get" [] (.func [("index", Ty.number)] (.param t)),
    .method "map" [u] (.func [("transform", item (.param t) (.param u))] (Ty.listOf (.param u))),
    .method "filter" []
      (.func [("predicate", item (.param t) Ty.boolean)] (Ty.listOf (.param t))) ]

/-- The definitions every script can use. -/
def builtin : Definitions :=
  let ds : Definitions := {}
  let ds := ds.register "number" none []
  let ds := ds.register "boolean" none []
  let ds := ds.register "null" none []
  let ds := ds.register "string" none [.property "length" Ty.number]
  (ds.reserve "List" [⟨"T", .output⟩]).define 4 none listMembers

end Definitions

/-- The definitions, and the types that a script can write by name. -/
structure Environment where
  definitions : Definitions
  types : OrderedMap String Ty

def Environment.initial : Environment where
  definitions := .builtin
  types := .ofList
    [("number", Ty.number), ("string", Ty.string), ("boolean", Ty.boolean), ("null", Ty.null),
     ("List", Ty.list)]

end ScriptTyping
