/-! # The format of the log -/

namespace ScriptTyping

/-- The characters with the Unicode property White_Space. -/
def isBlank (c : Char) : Bool :=
  let n := c.toNat
  (0x09 ≤ n && n ≤ 0x0D) || n == 0x20 || n == 0x85 || n == 0xA0 || n == 0x1680 ||
    (0x2000 ≤ n && n ≤ 0x200A) || n == 0x2028 || n == 0x2029 || n == 0x202F || n == 0x205F ||
    n == 0x3000

/-- Without the blanks at both ends. -/
def trim (text : List Char) : List Char :=
  ((text.dropWhile isBlank).reverse.dropWhile isBlank).reverse

inductive LogFormat
  | text
  | tree
  | json
deriving DecidableEq

namespace LogFormat

/-- Blanks around the name and the case of its letters do not matter; any other name is `text`. No
character outside ASCII lowers to a letter of a name, so the ASCII letters are enough. -/
def ofName (name : String) : LogFormat :=
  let name := (trim name.toList).map Char.toLower
  if name = "tree".toList then .tree
  else if name = "json".toList then .json
  else .text

end LogFormat

end ScriptTyping
