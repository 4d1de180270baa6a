import ScriptTyping.Number
import ScriptTyping.OrderedMap

/-!
# Structured data

What options and diagnostics are read from, and diagnostics and trees are written to.
-/

namespace ScriptTyping

inductive Document
  | null
  | boolean (value : Bool)
  | integer (value : Int)
  | real (value : Number)
  | text (value : String)
  | list (items : List Document)
  | record (fields : List (String × Document))

namespace Document

def natural (n : Nat) : Document := .integer n

/-- Nothing is written as null. -/
def optional {α : Type} (write : α → Document) : Option α → Document
  | none => .null
  | some a => write a

/-! ## Reading -/

def boolean? : Document → Option Bool
  | .boolean b => some b
  | _ => none

def text? : Document → Option String
  | .text s => some s
  | _ => none

/-- An integer of 32 bits without sign. -/
def word? : Document → Option Nat
  | .integer (.ofNat n) => if n < Nat.pow 2 32 then some n else none
  | _ => none

/-- The fields of the given names. A record has them by name, whatever else it holds; a list has
them by place and may stop early. -/
def fields? (names : List String) : Document → Option (List (Option Document))
  | .record fields => some (names.map (OrderedMap.find fields))
  | .list items =>
    if items.length ≤ names.length then
      some (names.zipIdx.map fun (_, place) => items[place]?)
    else none
  | _ => none

def required {α : Type} (read : Document → Option α) (field : Option Document) : Option α :=
  field.bind read

/-- A missing field has its default; one that is there has to be read. -/
def withDefault {α : Type} (read : Document → Option α) (default : α) :
    Option Document → Option α
  | none => some default
  | some d => read d

end Document

end ScriptTyping
