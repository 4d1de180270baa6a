/-! # Options of a check -/

namespace ScriptTyping

structure Options where
  fileName : String := "<script>"
  /-- What a lambda without parameters calls its argument. -/
  implicitLambdaParameter : String := "it"
  /-- Whether a guard on a variable that can be reassigned is a finding. -/
  reportNonNarrowableGuards : Bool := true
  /-- How deep the resolution of a node may nest. -/
  maxResolutionDepth : Nat := 256
deriving DecidableEq

end ScriptTyping
