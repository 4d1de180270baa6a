import ScriptTyping.Ty.Basic

/-! # The text of a type -/

namespace ScriptTyping.Ty

mutual
def text : Ty → String
  | unknown => "unknown"
  | never => "never"
  | literal value _ => value.display
  | union members => " | ".intercalate (alternativeTexts members)
  | func params result => "(" ++ ", ".intercalate (paramTexts params) ++ ") -> " ++ text result
  | nominal _ name none => name
  | nominal _ name (some args) => name ++ "<" ++ ", ".intercalate (texts args) ++ ">"
  | param p => p.name

def texts : List Ty → List String
  | [] => []
  | t :: ts => text t :: texts ts

/-- A function type stands in brackets inside a union. -/
def alternativeTexts : List Ty → List String
  | [] => []
  | t :: ts => (if t.isFunc then "(" ++ text t ++ ")" else text t) :: alternativeTexts ts

def paramTexts : List (String × Ty) → List String
  | [] => []
  | (name, t) :: ps => (name ++ ": " ++ text t) :: paramTexts ps
end

end ScriptTyping.Ty
