import ScriptTyping.Diagnostic
import ScriptTyping.Document.Basic

/-! # Spans and diagnostics as data -/

namespace ScriptTyping

namespace Position

def toDocument (p : Position) : Document :=
  .record [("index", .natural p.index), ("line", .natural p.line), ("column", .natural p.column)]

def ofDocument? (d : Document) : Option Position :=
  match d.fields? ["index", "line", "column"] with
  | some [index, line, column] => do
    return ⟨← Document.required Document.word? index, ← Document.required Document.word? line,
      ← Document.required Document.word? column⟩
  | _ => none

end Position

namespace Span

def toDocument (s : Span) : Document :=
  .record [("start", s.start.toDocument), ("stop", s.stop.toDocument)]

def ofDocument? (d : Document) : Option Span :=
  match d.fields? ["start", "stop"] with
  | some [start, stop] => do
    return ⟨← Document.required Position.ofDocument? start,
      ← Document.required Position.ofDocument? stop⟩
  | _ => none

end Span

namespace Severity

def toDocument : Severity → Document
  | error => .text "error"

/-- The name, alone or as the only field of a record that holds null. -/
def ofDocument? : Document → Option Severity
  | .text "error" => some .error
  | .record [("error", .null)] => some .error
  | _ => none

end Severity

namespace Diagnostic

def toDocument (d : Diagnostic) : Document :=
  .record
    [("code", .natural d.code), ("severity", d.severity.toDocument), ("message", .text d.message),
     ("span", d.span.toDocument)]

def ofDocument? (d : Document) : Option Diagnostic :=
  match d.fields? ["code", "severity", "message", "span"] with
  | some [code, severity, message, span] => do
    return ⟨← Document.required Document.word? code,
      ← Document.required Severity.ofDocument? severity,
      ← Document.required Document.text? message, ← Document.required Span.ofDocument? span⟩
  | _ => none

end Diagnostic

end ScriptTyping
