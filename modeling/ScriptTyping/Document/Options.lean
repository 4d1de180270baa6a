import ScriptTyping.Document.Basic
import ScriptTyping.Options

/-! # Options from data -/

namespace ScriptTyping

/-- Every field has a default. -/
def Options.ofDocument? (d : Document) : Option Options :=
  let names :=
    ["fileName", "implicitLambdaParameter", "reportNonNarrowableGuards", "maxResolutionDepth"]
  let base : Options := {}
  match d.fields? names with
  | some [fileName, implicit, report, depth] => do
    return ⟨← Document.withDefault Document.text? base.fileName fileName,
      ← Document.withDefault Document.text? base.implicitLambdaParameter implicit,
      ← Document.withDefault Document.boolean? base.reportNonNarrowableGuards report,
      ← Document.withDefault Document.word? base.maxResolutionDepth depth⟩
  | _ => none

end ScriptTyping
