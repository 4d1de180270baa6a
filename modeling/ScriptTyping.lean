import ScriptTyping.Assignable.Checker
import ScriptTyping.Compile
import ScriptTyping.Document.Options
import ScriptTyping.Document.Tree
import ScriptTyping.LogFormat
import ScriptTyping.Proofs.Ancestry
import ScriptTyping.Proofs.Calls
import ScriptTyping.Proofs.Checking
import ScriptTyping.Proofs.Conditions
import ScriptTyping.Proofs.Declarations
import ScriptTyping.Proofs.Expressions
import ScriptTyping.Proofs.Generation
import ScriptTyping.Proofs.GuardOperands
import ScriptTyping.Proofs.Guards
import ScriptTyping.Proofs.KnownDefinitions
import ScriptTyping.Proofs.KnownTypes
import ScriptTyping.Proofs.Lambdas
import ScriptTyping.Proofs.LexicalScoping
import ScriptTyping.Proofs.Openings
import ScriptTyping.Proofs.Origins
import ScriptTyping.Proofs.Progress
import ScriptTyping.Proofs.Resolution
import ScriptTyping.Proofs.Run
import ScriptTyping.Proofs.SymbolReading
import ScriptTyping.Proofs.Trace
import ScriptTyping.Proofs.TypingRule
import ScriptTyping.Proofs.TypingSoundness
import ScriptTyping.Proofs.UninferredCalls
import ScriptTyping.Proofs.Visibility
import ScriptTyping.Proofs.Wiring
import ScriptTyping.Proofs.WiringRule
import ScriptTyping.Tree.Builder
import ScriptTyping.Proofs.PlainDefinitions
import ScriptTyping.Proofs.Assignability
import ScriptTyping.Proofs.Transitivity
import ScriptTyping.Proofs.Moves
import ScriptTyping.Proofs.Descendants
import ScriptTyping.Proofs.Onward
import ScriptTyping.Proofs.Coverage
import ScriptTyping.Proofs.ConjoinedGuards
import ScriptTyping.Proofs.References
import ScriptTyping.Proofs.FalseAlarms
import ScriptTyping.Proofs.MissedCycles
import ScriptTyping.Proofs.Circularity
import ScriptTyping.Proofs.Bindings
import ScriptTyping.Proofs.Translation
import ScriptTyping.Proofs.Reassignment
import ScriptTyping.Proofs.BoundLocals
import ScriptTyping.Proofs.WellFormedChecking
import ScriptTyping.Proofs.Lockstep
import ScriptTyping.Proofs.Upkeep
import ScriptTyping.Proofs.DepthLimit
import ScriptTyping.Proofs.ExpectedTypes
import ScriptTyping.Proofs.Narrowing
import ScriptTyping.Proofs.AlikeTypes
import ScriptTyping.Proofs.ArgumentFreeBases
import ScriptTyping.Proofs.Reflexivity
import ScriptTyping.Proofs.Bounds
import ScriptTyping.Proofs.FlatUnions
import ScriptTyping.Proofs.SubstitutionComposition
import ScriptTyping.Proofs.MemberInstantiation
import ScriptTyping.Proofs.MemberTables
import ScriptTyping.Proofs.MemberIntersection
import ScriptTyping.Proofs.BoundMembers
import ScriptTyping.Proofs.LambdaParameters
import ScriptTyping.Proofs.InheritedMembers
import ScriptTyping.Proofs.InferredParts
import ScriptTyping.Proofs.InferenceRoundTrip
import ScriptTyping.Proofs.RelationDepth
import ScriptTyping.Proofs.InferredBounds
import ScriptTyping.Proofs.FilledTemplates
import ScriptTyping.Proofs.UnionNormalForm
import ScriptTyping.Proofs.ParentWalks
import ScriptTyping.Proofs.WiringLoop
import ScriptTyping.Proofs.Reports
import ScriptTyping.Proofs.DistinctFindings
import ScriptTyping.Proofs.CheckerReuse
import ScriptTyping.Proofs.FreeParameters
import ScriptTyping.Proofs.Widening
import ScriptTyping.Proofs.Requests
import ScriptTyping.Proofs.KeptTypes
import ScriptTyping.Proofs.AddsOnly
import ScriptTyping.Proofs.StateOrder
import ScriptTyping.Proofs.Preorder
import ScriptTyping.Proofs.BuilderSpans
