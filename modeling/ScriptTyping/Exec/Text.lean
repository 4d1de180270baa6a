import ScriptTyping.Exec.Basic
import ScriptTyping.Ty.Text

/-! # The text of the executable form -/

namespace ScriptTyping.Exec

mutual
/-- A host value has a dollar sign, and a converted value its type. -/
def text : Exec → String
  | constant _ value => value.display
  | collection _ elements => "[" ++ ", ".intercalate (texts elements) ++ "]"
  | hostValue _ name => "$" ++ name
  | localValue _ _ name => name
  | conditional _ condition thenBranch elseBranch =>
    "if(" ++ text condition ++ ", " ++ text thenBranch ++ ", " ++ text elseBranch ++ ")"
  | invoke _ callee arguments _ =>
    text callee ++ "(" ++ ", ".intercalate (texts arguments) ++ ")"
  | memberRead _ object member => text object ++ "." ++ member.name
  | convert site value => "(" ++ text value ++ " as " ++ site.ty.text ++ ")"
  | lambda _ params body =>
    let head := if params.isEmpty then "" else ", ".intercalate (params.map (·.name)) ++ " -> "
    "\x7b " ++ head ++ text body ++ " \x7d"
  | typeTest _ value target => "(" ++ text value ++ " is " ++ target.text ++ ")"
  | conjunction _ left right => "(" ++ text left ++ " and " ++ text right ++ ")"
  | block _ statements => "\x7b " ++ "; ".intercalate (texts statements) ++ " \x7d"
  | declare _ _ name isConst value =>
    (if isConst then "const " else "let ") ++ name ++ " = " ++ text value
  | assign _ target value => text target ++ " = " ++ text value

def texts : List Exec → List String
  | [] => []
  | e :: es => text e :: texts es
end

end ScriptTyping.Exec
