import ScriptTyping.Proofs.Checking
import ScriptTyping.Proofs.Coverage
import ScriptTyping.Proofs.MissedCycles

/-!
# Circular references

A check that stays within the depth limit reports a circular reference exactly if the references
between declarations have a cycle.
-/

namespace ScriptTyping

open Session Check Relation

variable {ctx : Context} {root i n : NodeIndex} {base σ : Nat} {s₀ s s' : Session}
  {expected : Option Ty} {table table' : SymbolTable}

/-- Between two resolutions that nobody has asked for: what is reported is right, and unless there
is an alarm no typed node has a way back. -/
structure Unbiased (ctx : Context) (root : NodeIndex) (s₀ s : Session) : Prop where
  onward : s₀.Onward s
  idle : s.inProgress = []
  reports : s.Reports .circularReference → Cyclic ctx root s₀
  grounds : ¬ s.Alarmed → Grounds ctx root s₀ s

namespace Unbiased

theorem start (hL : Layout ctx root base s₀)
    (h : Walked ctx root σ (.start ctx table) s₀) : Unbiased ctx root s₀ s₀ := by
  obtain ⟨-, hdiagnostics, hprogress, -, hlimit⟩ := h.grows.later
  refine ⟨.refl s₀, hprogress, ?_, fun _ => ⟨hlimit, ?_, ?_⟩⟩
  · rintro ⟨f, hf, -⟩
    rw [hdiagnostics] at hf
    cases hf
  · rintro n hn ⟨r, hr⟩
    obtain ⟨sc, kind, hwired, -⟩ := hL.wired hn
    rw [hwired] at hr
    cases hr
  · intro id ty d hty
    rw [hL.untyped] at hty
    cases hty

theorem resolve (h : Unbiased ctx root s₀ s) (hL : Layout ctx root base s₀)
    (hi : ctx.tree.Reaches root i) (expected : Option Ty) :
    (Check.resolve ctx i expected).After s fun _ s' => Unbiased ctx root s₀ s' := by
  have honward := resolveWithin_onward ctx ctx.options.maxResolutionDepth i expected s
  have hleads : LeadsTo ctx s₀ s i := by
    intro d hd
    simp [h.idle] at hd
  have hfair := resolveWithin_honest hL ctx.options.maxResolutionDepth i expected s h.onward hi
    (Or.inr hleads)
  refine ⟨h.onward.trans honward, ?_, fun hr => (hfair.reports hr).elim h.reports fun hc => hc,
    fun hquiet => ?_⟩
  · exact List.subset_nil.mp (h.idle ▸ hfair.inProgress)
  · exact (resolveWithin_thorough hL ctx.options.maxResolutionDepth i expected s h.onward hi
      (h.grounds (honward.quiet hquiet)) hquiet).1

theorem checkAssignable (h : Unbiased ctx root s₀ s) (n : NodeIndex) (source target : Ty) :
    (Check.checkAssignable ctx n source target).After s fun _ s' => Unbiased ctx root s₀ s' := by
  unfold Check.checkAssignable
  split
  · exact h
  · have hcode : Message.typeNotAssignable.code ≠ Message.circularReference.code := by decide
    have honward := Onward.report s
      (.ofMessage (ctx.tree.span n) .typeNotAssignable [source.text, target.text])
    refine ⟨h.onward.trans honward, h.idle, fun hr => ?_, fun hquiet => ?_⟩
    · exact h.reports ((reports_append hr).resolve_right hcode)
    · exact (h.grounds (honward.quiet hquiet)).of_same rfl rfl rfl

end Unbiased

theorem checkRoot_unbiased (hp : ctx.tree.Proper root) (htypes : ctx.tree.TypesInPlace root)
    (hhost : table.HostScope σ) :
    (checkRoot ctx root σ expected).After (.start ctx table) fun _ s =>
      ∃ s₀, Unbiased ctx root s₀ s := by
  refine checkRoot_after (I := fun s => ∃ s₀, Layout ctx root table.symbols.size s₀ ∧
    Unbiased ctx root s₀ s) ?_ ?_ ?_ ?_
  · refine (wire_spec hp hhost.wf hhost.lt).mono ?_
    rintro - s₀ ⟨hwalked, hacc⟩
    have hL := hwalked.layout hp htypes hhost hacc
    exact ⟨s₀, hL, .start hL hwalked⟩
  · rintro s ⟨s₀, hL, h⟩
    exact (h.resolve hL (.refl _ root) expected).mono fun _ s' h' => ⟨s₀, hL, h'⟩
  · rintro s ty target ⟨s₀, hL, h⟩
    exact (h.checkAssignable root ty target).mono fun _ s' h' => ⟨s₀, hL, h'⟩
  · rintro s ⟨s₀, hL, h⟩
    refine (resolveRest_after (fun n hn s h => h.resolve hL ?_ none) h).mono fun _ s' h' => ⟨s₀, h'⟩
    exact (hp.acyclicBelow.mem_descendants_iff.mp hn).1

/-- All nodes are typed in the end, so if nothing was alarming none of them has a way back. -/
theorem checkRoot_reports_iff (expected : Option Ty) (hp : ctx.tree.Proper root)
    (htypes : ctx.tree.TypesInPlace root) (hhost : table.HostScope σ) :
    (checkRoot ctx root σ expected).After (.start ctx table) fun _ s =>
      ¬ s.Reports .expressionTooDeep →
        (s.Reports .circularReference ↔ Cyclic ctx root s) := by
  refine ((checkRoot_unbiased hp htypes hhost).and (checkRoot_covers hp.acyclicBelow)).mono ?_
  rintro - s ⟨⟨s₀, h⟩, -, htyped⟩ hdepth
  have hcyclic : Cyclic ctx root s ↔ Cyclic ctx root s₀ := by
    rw [Cyclic, h.onward.pointsTo_eq, Cyclic]
  rw [hcyclic]
  refine ⟨h.reports, fun hcycle => ?_⟩
  by_contra hnone
  have hg := h.grounds fun halarm => halarm.elim hnone hdepth
  refine not_cyclic_of_grounded (fun n hn => ?_) hcycle
  exact hg.nodes hn (htyped n ⟨hn, hp.present hn⟩)

/-- Circular references are reported exactly if there are any, in a check that does not report the
depth limit. -/
theorem circularReference_iff_cycle {result : CheckResult} (hp : ctx.tree.Proper root)
    (htypes : ctx.tree.TypesInPlace root) (hhost : table.HostScope σ)
    (hcheck : check ctx table root σ expected = (result, table'))
    (hdepth : ∀ f ∈ result.diagnostics, f.code ≠ Message.expressionTooDeep.code) :
    (∃ f ∈ result.diagnostics, f.code = Message.circularReference.code) ↔
      ∃ d, TransGen (PointsTo ctx root result.nodes table') d d := by
  obtain ⟨ty, s, heq, hreports⟩ : ∃ (ty : Ty) (s : Session), check ctx table root σ expected =
        (⟨root, ty, s.nodes, s.symbolTypes, s.diagnostics⟩, s.table) ∧
      (¬ s.Reports .expressionTooDeep → (s.Reports .circularReference ↔ Cyclic ctx root s)) :=
    ⟨_, _, rfl, checkRoot_reports_iff expected hp htypes hhost⟩
  rw [heq] at hcheck
  cases hcheck
  refine hreports ?_
  rintro ⟨f, hf, hcode⟩
  exact hdepth f hf hcode

/-- `const a = [b]` and `const b = if (a is string) a` in one block. -/
def mutualContext : Context where
  env := .initial
  options := {}
  tree := ⟨#[⟨.identifier "b", Span.empty⟩, ⟨.collection [0], Span.empty⟩,
    ⟨.declaration "a" true none 1, Span.empty⟩, ⟨.identifier "a", Span.empty⟩,
    ⟨.typeRef "string" [], Span.empty⟩, ⟨.typeTest 3 4, Span.empty⟩,
    ⟨.identifier "a", Span.empty⟩, ⟨.conditional 5 6 none, Span.empty⟩,
    ⟨.declaration "b" true none 7, Span.empty⟩, ⟨.block [2, 8], Span.empty⟩]⟩

def mutualTable : SymbolTable := (SymbolTable.hostScope {} []).2

/-- Each of `a` and `b` points to the other, `b` through a narrowing too, and that is reported. -/
theorem mutual_declarations_reported :
    ∃ result table', check mutualContext mutualTable 9 0 none = (result, table') ∧
      (∃ f ∈ result.diagnostics, f.code = Message.circularReference.code) ∧
      ∃ d, TransGen (PointsTo mutualContext 9 result.nodes table') d d := by
  have hp : mutualContext.tree.Proper 9 := by
    apply Tree.Proper.of_slots <;> decide
  have htypes : mutualContext.tree.TypesInPlace 9 := by
    apply Tree.TypesInPlace.of_nodes
    decide
  have hhost : mutualTable.HostScope 0 := SymbolTable.hostScope_spec _
  have hdepth : ∀ f ∈ (check mutualContext mutualTable 9 0 none).1.diagnostics,
      f.code ≠ Message.expressionTooDeep.code := by decide +kernel
  have hreported : ∃ f ∈ (check mutualContext mutualTable 9 0 none).1.diagnostics,
      f.code = Message.circularReference.code := by decide +kernel
  generalize hcheck : check mutualContext mutualTable 9 0 none = outcome at hdepth hreported
  obtain ⟨result, table'⟩ := outcome
  exact ⟨result, table', rfl, hreported,
    (circularReference_iff_cycle hp htypes hhost hcheck hdepth).mp hreported⟩

end ScriptTyping
