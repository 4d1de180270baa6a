import ScriptTyping.Proofs.Checking

/-!
# Soundness of typing

A check that reports nothing has typed the whole tree by the rules.
-/

namespace ScriptTyping

variable {ctx : Context} {root : NodeIndex} {σ : Nat} {expected : Option Ty}
  {table table' : SymbolTable} {result : CheckResult}

/-- If a check reports nothing, what is recorded for every node satisfies its rule over what is
recorded for its children, and the root fits the type that is expected of it. -/
theorem typing_soundness (hp : ctx.tree.Proper root) (htypes : ctx.tree.TypesInPlace root)
    (hhost : table.HostScope σ) (hcheck : check ctx table root σ expected = (result, table'))
    (hclean : result.diagnostics = []) :
    (∀ n kind, ctx.tree.Reaches root n → ctx.tree.kind? n = some kind →
      ∃ r, result.nodes.resolution? n = some r ∧
        Findings.TypingRule ctx ⟨result.nodes, table', result.symbolTypes⟩ n r kind) ∧
    result.nodes.type? root = some result.rootType ∧
    ∀ t, expected = some t → Fits ctx result.rootType t := by
  obtain ⟨ty, s, heq, hconcluded⟩ := check_spec expected hp htypes hhost
  rw [heq] at hcheck
  cases hcheck
  refine ⟨fun n kind hn hk => ?_, hconcluded.root, hconcluded.fits hclean⟩
  obtain ⟨r, kind', hr, hk', hrule⟩ := hconcluded.rule hclean hn
  rw [hk] at hk'
  cases hk'
  exact ⟨r, hr, hrule⟩

/-- In the then branch of `if (v is string) v else v` the type of `v` is the narrowed one. -/
theorem then_branch_typed_by_narrowing :
    ∃ result table', check guardedContext guardedTable 5 0 (some (.union [Ty.number, Ty.string])) =
        (result, table') ∧ result.diagnostics = [] ∧
      ∃ r id, result.nodes.resolution? 3 = some r ∧ r.binding = .symbol id ∧ r.ty = Ty.string ∧
        Findings.SymbolHasType guardedContext ⟨result.nodes, table', result.symbolTypes⟩ id r.ty := by
  have hp : guardedContext.tree.Proper 5 := by
    apply Tree.Proper.of_slots <;> decide
  have htypes : guardedContext.tree.TypesInPlace 5 := by
    apply Tree.TypesInPlace.of_nodes
    decide
  have hhost : guardedTable.HostScope 0 := SymbolTable.hostScope_spec _
  have hclean : (check guardedContext guardedTable 5 0
      (some (.union [Ty.number, Ty.string]))).1.diagnostics = [] := by decide +kernel
  have hstring : (check guardedContext guardedTable 5 0
      (some (.union [Ty.number, Ty.string]))).1.nodes.type? 3 = some Ty.string := by decide +kernel
  generalize hcheck : check guardedContext guardedTable 5 0
    (some (.union [Ty.number, Ty.string])) = outcome at hclean hstring
  obtain ⟨result, table'⟩ := outcome
  have hk : guardedContext.tree.kind? 5 = some (.conditional 2 3 (some 4)) := by decide
  have hthen : guardedContext.tree.Child 5 3 := (Tree.child_of_kind hk).mpr (by decide)
  obtain ⟨r, hr, id, -, hbinding, hty⟩ := (typing_soundness hp htypes hhost hcheck hclean).1 3
    (.identifier "v") hthen.reaches (by decide)
  refine ⟨result, table', rfl, hclean, r, id, hr, hbinding, ?_, hty⟩
  simpa [NodeStates.type?, hr] using hstring

end ScriptTyping
