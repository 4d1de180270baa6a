import ScriptTyping.Number.Text

/-! # Constants of a script -/

namespace ScriptTyping

/-- The value of a literal type. -/
inductive LiteralValue
  | number (value : Number)
  | text (value : String)
  | boolean (value : Bool)
deriving DecidableEq

namespace LiteralValue

/-- Equality of values; a NaN literal differs from itself. -/
def same : LiteralValue → LiteralValue → Bool
  | number a, number b => a.same b
  | text a, text b => a == b
  | boolean a, boolean b => a == b
  | _, _ => false

/-- Texts stand in quotes, unescaped. -/
def display : LiteralValue → String
  | number n => n.display
  | text s => "\"" ++ s ++ "\""
  | boolean true => "true"
  | boolean false => "false"

end LiteralValue

/-- A constant written in a script: a literal value or `null`. -/
inductive Constant
  | value (v : LiteralValue)
  | null
deriving DecidableEq

def Constant.display : Constant → String
  | value v => v.display
  | null => "null"

end ScriptTyping
