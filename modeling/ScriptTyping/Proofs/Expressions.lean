import ScriptTyping.Proofs.SymbolReading
import ScriptTyping.Typing.Calls

/-!
# Expressions and statements by their rules

One lemma for each kind of node: when its type is found, the children are recorded, and without
diagnostics the rule of typing is satisfied.
-/

namespace ScriptTyping

open Session Check

variable {ctx : Context} {root c i n : NodeIndex} {base id : Nat} {wanted : Option Ty}
  {s₀ s s' s'' : Session} {ty : Ty} {name : String} {scopes : NodeScopes} {expected : Option Ty}

theorem Later.haveTypes {ns : List NodeIndex} {types : List Ty} (h : Later ctx root wanted s s')
    (hn : s.findings.HaveTypes ns types) : s'.findings.HaveTypes ns types := by
  unfold Findings.HaveTypes at hn ⊢
  rw [← hn]
  apply List.map_congr_left
  intro n hmem
  obtain ⟨ty, hty⟩ := Findings.HaveTypes.recorded hn hmem
  rw [hty, h.type hty]

theorem fits_iff {source target : Ty} : Fits ctx source target ↔
    (source.containsUnknown || target.containsUnknown
      || ctx.env.definitions.isAssignable source target) = true := by
  simp [Fits, or_assoc]

namespace Resolving

variable {resolve : Resolver} (h : Resolving ctx root base wanted s₀ resolve i s)

include h

/-! ## Parts of several rules -/

omit h in
theorem checkAssignable_spec {source target : Ty} (hp : Progress ctx root wanted i s s') :
    (checkAssignable ctx n source target).After s' fun _ s'' => Progress ctx root wanted i s s'' ∧
      Later ctx root wanted s' s'' ∧ (s''.diagnostics = [] → Fits ctx source target) := by
  unfold checkAssignable
  split
  · rename_i hfits
    exact ⟨hp, .refl s', fun _ => fits_iff.mpr hfits⟩
  · rw [after_reportAt]
    exact ⟨hp.report _, .report s' _, by simp⟩

theorem resolveCondition_spec (hp : Progress ctx root wanted i s s') (hc : ctx.tree.Child i c)
    (he : s'.Awaits ctx root wanted c (some Ty.boolean)) :
    (resolveCondition ctx resolve c).After s' fun _ s'' => Progress ctx root wanted i s s'' ∧
      Later ctx root wanted s' s'' ∧ ∃ ty, s''.findings.type? c = some ty ∧
        (s''.diagnostics = [] → Fits ctx ty Ty.boolean) := by
  unfold resolveCondition
  simp only [after_bind]
  refine (h.visit hp hc he).mono ?_
  rintro ty s1 ⟨hp1, hlater, hty⟩
  split
  · rename_i hfits
    refine ⟨hp1, hlater, ty, hty, fun _ => ?_⟩
    rw [Bool.or_eq_true] at hfits
    exact hfits.imp_right Or.inr
  · rw [after_reportAt]
    exact ⟨hp1.report _, hlater.trans (.report s1 _), ty, hty, by simp⟩

theorem visit_all {ns : List NodeIndex} (hp : Progress ctx root wanted i s s')
    (hc : ∀ c ∈ ns, ctx.tree.Child i c) (he : ∀ c ∈ ns, s'.Awaits ctx root wanted c expected) :
    (ns.mapM fun c => resolve c expected).After s' fun types s'' =>
      Progress ctx root wanted i s s'' ∧ Later ctx root wanted s' s'' ∧
        s''.findings.HaveTypes ns types := by
  induction ns generalizing s' with
  | nil => exact ⟨hp, .refl s', rfl⟩
  | cons c ns ih =>
    rw [after_mapM_cons]
    refine (h.visit hp (hc c (by simp)) (he c (by simp))).mono ?_
    rintro ty s1 ⟨hp1, hlater1, hty⟩
    refine (ih hp1 (fun c' hc' => hc c' (by simp [hc']))
      fun c' hc' => (he c' (by simp [hc'])).later hlater1).mono ?_
    rintro types s2 ⟨hp2, hlater2, htypes⟩
    exact ⟨hp2, hlater1.trans hlater2, htypes.cons (hlater2.type hty)⟩

/-! ## Names and values -/

theorem resolveIdentifier_spec (hnot : ¬ s.Recorded i) (hk : ctx.tree.kind? i = some (.identifier name))
    (hsc : s₀.nodes.scopes? i = some scopes) :
    (resolveIdentifier ctx resolve i scopes.scope name).After s
      (Answer ctx root wanted i scopes (.identifier name) s) := by
  have hvalue : ctx.tree.isTypeRef i = false := by simp [Tree.isTypeRef, hk, NodeKind.isTypeRef]
  unfold resolveIdentifier
  simp only [after_bind, after_get]
  split
  · simp only [after_bind, after_reportAt, after_pure]
    exact h.answer_reported hnot ((Progress.refl i s).report _) (by simp)
  · rename_i id hid
    simp only [after_bind, after_pure]
    rw [h.held.later.table] at hid
    refine (h.symbolType_spec hvalue hsc (SymbolTable.sees_of_resolve hid).1).mono ?_
    rintro ty s' ⟨hp, hty⟩
    refine h.answer hnot hp (fun _ => trivial) fun hclean => ⟨id, ?_, rfl, hty hclean⟩
    rw [← hid, ← (h.held_after hp).later.table]
    rfl

theorem resolveCollection_spec (hnot : ¬ s.Recorded i) {elements : List NodeIndex}
    (hk : ctx.tree.kind? i = some (.collection elements))
    (he : s.Awaits ctx root wanted i expected) :
    (resolveCollection resolve elements expected).After s
      (Answer ctx root wanted i scopes (.collection elements) s) := by
  unfold resolveCollection
  simp only [after_bind, after_pure]
  refine (h.visit_all (.refl i s) (fun c hc => (Tree.child_of_kind hk).mpr hc) fun c hc =>
    he.child h.reaches hk fun _ t ht => ⟨hc, ht⟩).mono ?_
  rintro types s' ⟨hp, -, htypes⟩
  exact h.answer hnot hp (fun _ => trivial) fun _ => ⟨types, htypes, rfl, rfl⟩

/-! ## Conditions -/

theorem resolveConditional_spec (hnot : ¬ s.Recorded i) {condition thenBranch : NodeIndex}
    {elseBranch : Option NodeIndex}
    (hk : ctx.tree.kind? i = some (.conditional condition thenBranch elseBranch))
    (he : s.Awaits ctx root wanted i expected) :
    (resolveConditional ctx resolve condition thenBranch elseBranch expected).After s
      (Answer ctx root wanted i scopes (.conditional condition thenBranch elseBranch) s) := by
  have hchild : ∀ {c}, c ∈ condition :: thenBranch :: elseBranch.toList → ctx.tree.Child i c :=
    (Tree.child_of_kind hk).mpr
  have hbranch : ∀ {c}, c ∈ thenBranch :: elseBranch.toList →
      s.Awaits ctx root wanted c expected := fun hc =>
    he.child h.reaches hk fun _ t ht => Or.inr ⟨hc, ht⟩
  unfold resolveConditional
  simp only [after_bind]
  refine (h.resolveCondition_spec (.refl i s) (hchild (by simp)) ?_).mono ?_
  · exact he.child h.reaches hk fun _ t ht => Or.inl ⟨rfl, (Option.some.inj ht).symm⟩
  rintro - s1 ⟨hp1, hlater1, test, htest, hfits⟩
  refine (h.visit hp1 (hchild (by simp)) ((hbranch (by simp)).later hlater1)).mono ?_
  rintro yes s2 ⟨hp2, hlater2, hyes⟩
  cases elseBranch with
  | none =>
    refine h.answer hnot hp2 (fun _ => trivial) fun hclean => ?_
    exact ⟨test, yes, hlater2.type htest, hfits (hlater2.clean hclean), hyes, rfl, rfl⟩
  | some e =>
    simp only [after_bind, after_pure]
    refine (h.visit hp2 (hchild (by simp))
      ((hbranch (by simp)).later (hlater1.trans hlater2))).mono ?_
    rintro no s3 ⟨hp3, hlater3, hno⟩
    refine h.answer hnot hp3 (fun _ => trivial) fun hclean => ?_
    exact ⟨test, yes, (hlater2.trans hlater3).type htest,
      hfits ((hlater2.trans hlater3).clean hclean), hlater3.type hyes, rfl, no, hno, rfl⟩

theorem resolveConjunction_spec (hnot : ¬ s.Recorded i) {left right : NodeIndex}
    (hk : ctx.tree.kind? i = some (.conjunction left right)) :
    (resolveConjunction ctx resolve left right).After s
      (Answer ctx root wanted i scopes (.conjunction left right) s) := by
  have hchild : ∀ {c}, c ∈ [left, right] → ctx.tree.Child i c := (Tree.child_of_kind hk).mpr
  have hboolean : ∀ {c} {s' : Session}, c ∈ [left, right] →
      s'.Awaits ctx root wanted c (some Ty.boolean) := fun hc =>
    Awaits.none.child h.reaches hk fun _ t ht => ⟨hc, (Option.some.inj ht).symm⟩
  unfold resolveConjunction
  simp only [after_bind, after_pure]
  refine (h.resolveCondition_spec (.refl i s) (hchild (by simp)) (hboolean (by simp))).mono ?_
  rintro - s1 ⟨hp1, -, first, hfirst, hfits1⟩
  refine (h.resolveCondition_spec hp1 (hchild (by simp)) (hboolean (by simp))).mono ?_
  rintro - s2 ⟨hp2, hlater2, second, hsecond, hfits2⟩
  refine h.answer hnot hp2 (fun _ => trivial) fun hclean => ?_
  exact ⟨first, second, hlater2.type hfirst, hfits1 (hlater2.clean hclean), hsecond, hfits2 hclean,
    rfl, rfl⟩

theorem resolveTypeTest_spec (hnot : ¬ s.Recorded i) {operand target : NodeIndex}
    (hk : ctx.tree.kind? i = some (.typeTest operand target)) :
    (resolveTypeTest ctx resolve operand target).After s
      (Answer ctx root wanted i scopes (.typeTest operand target) s) := by
  have hchild : ∀ {c}, c ∈ [operand, target] → ctx.tree.Child i c := (Tree.child_of_kind hk).mpr
  unfold resolveTypeTest
  simp only [after_bind, after_get]
  refine (h.visit (.refl i s) (hchild (by simp)) .none).mono ?_
  rintro value s1 ⟨hp1, -, hvalue⟩
  refine (h.visit hp1 (hchild (by simp)) .none).mono ?_
  rintro asserted s2 ⟨hp2, hlater2, hasserted⟩
  obtain ⟨tested, htested, -⟩ := Findings.type?_eq_some.mp (hlater2.type hvalue)
  -- Whether a finding is reported depends on the binding that is recorded for the operand.
  have hrule : (∀ id, tested.binding = .symbol id → ctx.options.reportNonNarrowableGuards = true →
      s2.table.isConst id = true) → Answer ctx root wanted i scopes (.typeTest operand target) s
        (Ty.boolean, .typeTest asserted) s2 := fun hconst =>
    h.answer hnot hp2 (fun _ => trivial)
      fun _ => ⟨tested, asserted, htested, hasserted, rfl, rfl, hconst⟩
  split
  · rename_i id hbound
    have hbinding : tested.binding = .symbol id := by
      unfold boundSymbol? at hbound
      rw [show s2.nodes.resolution? operand = _ from htested] at hbound
      split at hbound
      · rename_i heq
        cases heq
        cases hbound
        rfl
      · cases hbound
    split
    · simp only [after_bind, after_reportAt, after_pure]
      exact h.answer_reported hnot (hp2.report _) (by simp)
    · rename_i hquiet
      refine hrule fun id' hid' hopt => ?_
      rw [hbinding] at hid'
      cases hid'
      simpa [hopt] using hquiet
  · rename_i hbound
    refine hrule fun id' hid' _ => ?_
    obtain ⟨sc, ty, binding⟩ := tested
    cases hid'
    simp [boundSymbol?, show s2.nodes.resolution? operand = _ from htested] at hbound

/-! ## Statements -/

theorem resolveBlock_spec {statements : List NodeIndex} (hp : Progress ctx root wanted i s s')
    (hc : ∀ c ∈ statements, ctx.tree.Child i c)
    (he : ∀ c ∈ statements.getLast?, s'.Awaits ctx root wanted c expected) :
    (resolveBlock ctx resolve expected statements).After s' fun ty s'' =>
      Progress ctx root wanted i s s'' ∧ Later ctx root wanted s' s'' ∧
        ∃ types, s''.findings.HaveTypes statements types ∧
          ty = match statements.getLast? with
            | none => Ty.null
            | some last =>
              if ctx.tree.isStatement last then Ty.null else types.getLast?.getD Ty.null := by
  induction statements generalizing s' with
  | nil => exact ⟨hp, .refl s', [], rfl, rfl⟩
  | cons first rest ih =>
    cases rest with
    | nil =>
      unfold resolveBlock
      simp only [after_bind, after_pure]
      refine (h.visit hp (hc first (by simp)) (he first (by simp))).mono ?_
      rintro ty s1 ⟨hp1, hlater1, hty⟩
      exact ⟨hp1, hlater1, [ty], by simp [Findings.HaveTypes, hty], rfl⟩
    | cons second rest =>
      unfold resolveBlock
      simp only [after_bind]
      refine (h.visit hp (hc first (by simp)) .none).mono ?_
      rintro ty1 s1 ⟨hp1, hlater1, hty1⟩
      rw [List.getLast?_cons_cons] at he
      refine (ih hp1 (fun c hc' => hc c (by simp [hc']))
        fun c hc' => (he c hc').later hlater1).mono ?_
      rintro ty s2 ⟨hp2, hlater2, types, htypes, hty⟩
      refine ⟨hp2, hlater1.trans hlater2, ty1 :: types, htypes.cons (hlater2.type hty1), ?_⟩
      have hne : types ≠ [] := by
        rintro rfl
        simp [Findings.HaveTypes] at htypes
      rw [hty, List.getLast?_cons_cons, List.getLast?_cons_of_ne_nil hne]

/-! ## Type references -/

omit h in
theorem bind_of_arity {ds : Definitions} {named : Ty} {types : List Ty}
    (harity : missingArity ds named = types.length) (hne : types ≠ []) :
    ∃ bound, ds.bind named types = .ok bound := by
  have hpos : 0 < missingArity ds named := harity ▸ List.length_pos_iff.mpr hne
  unfold missingArity at harity hpos
  split at hpos
  · rename_i id name
    cases hd : ds.get? id with
    | none => simp [hd] at hpos
    | some d =>
      simp only [hd, Option.map_some, Option.getD_some] at harity hpos
      have hgeneric : d.isGeneric = true := by
        unfold Definition.isGeneric
        rw [Bool.not_eq_true', List.isEmpty_eq_false_iff]
        exact List.length_pos_iff.mp hpos
      exact ⟨.nominal id name (some types), by simp [Definitions.bind, hd, hgeneric, harity]⟩
  · omega

theorem resolveTypeRef_spec (hnot : ¬ s.Recorded i) {args : List NodeIndex}
    (hk : ctx.tree.kind? i = some (.typeRef name args)) :
    (resolveTypeRef ctx resolve i name args).After s
      (Answer ctx root wanted i scopes (.typeRef name args) s) := by
  unfold resolveTypeRef
  simp only [after_bind]
  refine (h.visit_all (.refl i s) (fun c hc => (Tree.child_of_kind hk).mpr hc)
    fun _ _ => .none).mono ?_
  rintro types s' ⟨hp, -, htypes⟩
  have hreported : ∀ {d : Diagnostic} {found : Ty × Binding},
      Answer ctx root wanted i scopes (.typeRef name args) s found
        { s' with diagnostics := s'.diagnostics ++ [d] } := fun {d} {_} =>
    h.answer_reported hnot (hp.report d) (by simp)
  split
  · exact hreported
  · rename_i named hnamed
    split
    · split
      · exact hreported
      · exact hreported
    · rename_i harity
      simp only [ne_eq, not_not] at harity
      split
      · rename_i hzero
        have hnil : types = [] := List.length_eq_zero_iff.mp (harity.symm.trans hzero)
        rw [after_pure]
        exact h.answer hnot hp (fun _ => trivial)
          fun _ => ⟨types, named, htypes, hnamed, harity, rfl, by simp [hnil]⟩
      · rename_i hpos
        have hne : types ≠ [] := by
          rintro rfl
          exact hpos harity
        obtain ⟨bound, hbound⟩ := bind_of_arity harity hne
        simp only [hbound]
        refine h.answer hnot hp (fun _ => trivial)
          fun _ => ⟨types, named, htypes, hnamed, harity, rfl, ?_⟩
        rw [if_neg hne]
        exact hbound

end Resolving

end ScriptTyping
