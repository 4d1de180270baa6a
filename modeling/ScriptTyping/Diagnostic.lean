import ScriptTyping.Span

/-!
# Diagnostics

A message is a code and a template with numbered places. A diagnostic is a filled message at a
span. Every message is an error.
-/

namespace ScriptTyping

inductive Severity
  | error
deriving DecidableEq

/-- A template has its places written as a number in braces. -/
structure Message where
  code : Nat
  template : String
  severity : Severity := .error
deriving DecidableEq

/-! ## Filling a template -/

/-- Replaces every occurrence of `pattern` from the left, without overlaps; `skip` characters of
the last occurrence are still to be dropped. -/
def replaceAll (pattern new : List Char) : Nat → List Char → List Char
  | _, [] => []
  | skip + 1, _ :: rest => replaceAll pattern new skip rest
  | 0, c :: rest =>
    if pattern.isPrefixOf (c :: rest) then
      new ++ replaceAll pattern new (pattern.length - 1) rest
    else
      c :: replaceAll pattern new 0 rest

/-- The text of place number `i`. -/
def place (i : Nat) : List Char := '\x7b' :: (Nat.toDigits 10 i ++ ['\x7d'])

/-- Fills place `i`, then the places after it. A place that an argument brings along is filled
too, if its number is still to come. -/
def fillFrom : Nat → List String → List Char → List Char
  | _, [], text => text
  | i, arg :: args, text => fillFrom (i + 1) args (replaceAll (place i) arg.toList 0 text)

def fill (template : String) (args : List String) : String :=
  String.ofList (fillFrom 0 args template.toList)

/-! ## The messages -/

namespace Message

def cannotFindName : Message := ⟨1001, "Cannot find name '\x7b0\x7d'.", .error⟩

def cannotFindType : Message := ⟨1002, "Cannot find type '\x7b0\x7d'.", .error⟩

def typeArgumentCount : Message :=
  ⟨1003, "Type '\x7b0\x7d' expects \x7b1\x7d type argument(s), but got \x7b2\x7d.", .error⟩

def typeArgumentsRequired : Message :=
  ⟨1004, "Generic type '\x7b0\x7d' requires \x7b1\x7d type argument(s).", .error⟩

def argumentNotAssignable : Message :=
  ⟨2001, "Argument of type '\x7b0\x7d' is not assignable to parameter of type '\x7b1\x7d'.", .error⟩

def argumentCount : Message := ⟨2002, "Expected \x7b0\x7d argument(s), but got \x7b1\x7d.", .error⟩

def notInvocable : Message := ⟨2003, "Value of type '\x7b0\x7d' is not invocable.", .error⟩

def memberNotFound : Message :=
  ⟨2101, "Member '\x7b0\x7d' does not exist on type '\x7b1\x7d'.", .error⟩

def memberAmbiguous : Message :=
  ⟨2102, "Member '\x7b0\x7d' is ambiguous on type '\x7b1\x7d'.", .error⟩

def typeNotAssignable : Message :=
  ⟨2201, "Type '\x7b0\x7d' is not assignable to type '\x7b1\x7d'.", .error⟩

def conditionNotBoolean : Message :=
  ⟨2202, "Condition of type '\x7b0\x7d' is not assignable to 'boolean'.", .error⟩

def assignmentToConst : Message :=
  ⟨2203, "Cannot assign to '\x7b0\x7d' because it is a constant.", .error⟩

def invalidAssignmentTarget : Message :=
  ⟨2204, "The left-hand side of an assignment must be a variable.", .error⟩

def guardNotNarrowing : Message :=
  ⟨2301, "'\x7b0\x7d' cannot be narrowed because it is reassignable.", .error⟩

def circularReference : Message :=
  ⟨2401, "'\x7b0\x7d' is referenced directly or indirectly in its own initializer.", .error⟩

def parameterNotInferred : Message :=
  ⟨2402, "Cannot infer the type of parameter '\x7b0\x7d'.", .error⟩

def expressionTooDeep : Message := ⟨2403, "Expression is nested too deeply to resolve.", .error⟩

/-- Every message, in the order of the codes. -/
def all : List Message :=
  [cannotFindName, cannotFindType, typeArgumentCount, typeArgumentsRequired,
   argumentNotAssignable, argumentCount, notInvocable, memberNotFound, memberAmbiguous,
   typeNotAssignable, conditionNotBoolean, assignmentToConst, invalidAssignmentTarget,
   guardNotNarrowing, circularReference, parameterNotInferred, expressionTooDeep]

def template? (code : Nat) : Option String :=
  (all.find? fun m => m.code == code).map (·.template)

end Message

/-! ## Diagnostics -/

structure Diagnostic where
  code : Nat
  severity : Severity
  message : String
  span : Span
deriving DecidableEq

namespace Diagnostic

def error (span : Span) (message : String) (code : Nat) : Diagnostic :=
  ⟨code, .error, message, span⟩

def ofMessage (span : Span) (m : Message) (args : List String) : Diagnostic :=
  ⟨m.code, m.severity, fill m.template args, span⟩

def isError (d : Diagnostic) : Bool := d.severity == .error

end Diagnostic

end ScriptTyping
