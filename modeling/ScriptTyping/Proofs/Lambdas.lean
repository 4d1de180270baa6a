import ScriptTyping.Proofs.Calls

/-!
# Lambdas by their rule

A lambda gives its parameters their types, each for the first time, before its body is resolved.
-/

namespace ScriptTyping

open Session Check

variable {ctx : Context} {root c i n : NodeIndex} {base id : Nat} {wanted : Option Ty}
  {s₀ s s' s'' : Session} {ty : Ty} {name : String} {scopes : NodeScopes} {expected : Option Ty}
  {params : List LambdaParam} {body : NodeIndex}

/-- The symbols of the lambda `i`, from its parameter `k` on, that wait for their types. -/
def Waiting (i : NodeIndex) (s : Session) (k : Nat) (ids : List SymbolId) : Prop :=
  ∀ p ∈ ids.zipIdx k, (∃ name, s.table.symbol? p.1 = some ⟨name, .parameter i p.2⟩) ∧
    s.symbolTypes.get? p.1 = none

theorem Session.Awaits.parameter (he : s.Awaits ctx root wanted i expected)
    (hclean : s.diagnostics = []) (hk : ctx.tree.kind? i = some (.lambda params body)) {k : Nat}
    {p : String × Ty} (hnone : params[k]?.bind (·.ascription) = none)
    (hplace : (expectedParams expected)[k]? = some p) :
    s.findings.ParameterRule ctx root wanted i k p.2 := by
  refine ⟨params, body, hk, ?_⟩
  rw [hnone]
  unfold expectedParams at hplace
  split at hplace
  · exact ⟨_, _, p.1, he hclean _ rfl, hplace⟩
  · simp at hplace

theorem Progress.bindParameter (hp : Progress ctx root wanted i s s')
    (hvalue : ctx.tree.isTypeRef i = false) (hnot : ¬ s'.Recorded i) {ids : List SymbolId} {k : Nat}
    (hnodup : (id :: ids).Nodup) (hw : Waiting i s' k (id :: ids))
    (hrule : s'.diagnostics = [] → s'.findings.ParameterRule ctx root wanted i k ty) :
    Progress ctx root wanted i s { s' with symbolTypes := s'.symbolTypes.insert id ty } ∧
      Later ctx root wanted s' { s' with symbolTypes := s'.symbolTypes.insert id ty } ∧
      Waiting i { s' with symbolTypes := s'.symbolTypes.insert id ty } (k + 1) ids := by
  obtain ⟨⟨name, hsym⟩, hfree⟩ := hw (id, k) (by simp)
  have hlater : Later ctx root wanted s' { s' with symbolTypes := s'.symbolTypes.insert id ty } :=
    .setSymbol hsym (fun _ => hfree) fun hclean => ⟨by simp [hfree], hrule hclean, by
      rintro l k heq
      cases heq
      exact hnot⟩
  refine ⟨hp.setSymbol hlater hsym (by simp) ?_, hlater, fun p hp' => ?_⟩
  · rintro l j' heq
    cases heq
    exact ⟨hvalue, .refl _ _, fun _ => rfl⟩
  · have hne : id ≠ p.1 := fun heq =>
      (List.nodup_cons.mp hnodup).1 (heq ▸ List.fst_mem_of_mem_zipIdx hp')
    obtain ⟨hsym', hfree'⟩ := hw p (by simp [hp'])
    exact ⟨hsym', (OrderedMap.get?_insert_of_ne _ hne _).trans hfree'⟩

namespace Resolving

variable {resolve : Resolver} (h : Resolving ctx root base wanted s₀ resolve i s)

include h

/-- A child leaves the parameters waiting: an ascription in any case, and the body unless it reports
one of them. -/
theorem visit_waiting (hnot : ¬ s.Recorded i) (hp : Progress ctx root wanted i s s')
    (hc : ctx.tree.Child i c) {k : Nat} {ids : List SymbolId} (hw : Waiting i s' k ids)
    (he : s'.Awaits ctx root wanted c expected) :
    (resolve c expected).After s' fun ty s'' => Progress ctx root wanted i s s'' ∧
      Later ctx root wanted s' s'' ∧ s''.findings.type? c = some ty ∧
      (ctx.tree.isTypeRef c = true ∨ s''.diagnostics = [] → Waiting i s'' k ids) := by
  refine (h.resolver (h.held_after hp) (h.reaches.tail hc) (h.child_ready hp hc) he).mono ?_
  intro ty s'' hout
  have hp' := hp.trans (hout.progress h.layout h.reaches hc)
  refine ⟨hp', hout.later, hout.recorded, fun hquiet p hmem => ?_⟩
  obtain ⟨⟨name, hsym⟩, hfree⟩ := hw p hmem
  refine ⟨⟨name, hout.later.table ▸ hsym⟩, ?_⟩
  by_contra hset
  rcases hout.params hsym hset with hset | hrec | ⟨hvalue, -, hdirty⟩
  · exact hset hfree
  · exact h.unrecorded hp' hnot hrec
  · rcases hquiet with htype | hclean
    · simp [htype] at hvalue
    · exact hdirty hclean

theorem parameterType_spec (hnot : ¬ s.Recorded i) (hp : Progress ctx root wanted i s s')
    (hk : ctx.tree.kind? i = some (.lambda params body)) {k : Nat} {param : LambdaParam}
    (hparam : params[k]? = some param)
    (hc : ∀ a ∈ param.ascription, ctx.tree.Child i a ∧ ctx.tree.isTypeRef a = true)
    (he : s'.Awaits ctx root wanted i expected) {ids : List SymbolId} (hw : Waiting i s' k ids) :
    (parameterType resolve param (expectedParams expected)[k]?).After s' fun ty s'' =>
      Progress ctx root wanted i s s'' ∧ Later ctx root wanted s' s'' ∧ Waiting i s'' k ids ∧
        (s''.diagnostics = [] → s''.findings.ParameterRule ctx root wanted i k ty) ∧
        ∀ a ∈ param.ascription, s''.findings.type? a = some ty := by
  unfold parameterType
  cases ha : param.ascription with
  | some a =>
    obtain ⟨hchild, htype⟩ := hc a ha
    refine (h.visit_waiting hnot hp hchild hw .none).mono ?_
    rintro ty s'' ⟨hp', hlater, hty, hw'⟩
    refine ⟨hp', hlater, hw' (Or.inl htype), fun _ => ⟨params, body, hk, ?_⟩, by simpa using hty⟩
    simpa [hparam, ha] using hty
  | none =>
    cases hplace : (expectedParams expected)[k]? with
    | some p =>
      have hnone : params[k]?.bind (·.ascription) = none := by simp [hparam, ha]
      exact ⟨hp, .refl s', hw, fun hclean => he.parameter hclean hk hnone hplace, by simp⟩
    | none =>
      simp only [after_bind, after_report, after_pure]
      exact ⟨hp.report _, .report s' _, hw, by simp, by simp⟩

theorem resolveParams_spec (hvalue : ctx.tree.isTypeRef i = false) (hnot : ¬ s.Recorded i)
    (hk : ctx.tree.kind? i = some (.lambda params body)) {k : Nat}
    {bound : List (LambdaParam × SymbolId)} (hp : Progress ctx root wanted i s s')
    (hparams : bound.map (·.1) = params.drop k)
    (hc : ∀ b ∈ bound, ∀ a ∈ b.1.ascription, ctx.tree.Child i a ∧ ctx.tree.isTypeRef a = true)
    (he : s'.Awaits ctx root wanted i expected)
    (hnodup : (bound.map (·.2)).Nodup) (hw : Waiting i s' k (bound.map (·.2))) :
    (resolveParams resolve bound ((expectedParams expected).drop k)).After s' fun resolved s'' =>
      Progress ctx root wanted i s s'' ∧ Later ctx root wanted s' s'' ∧
        resolved.map (·.1) = bound.map (·.1.name) ∧
        (bound.map (·.2)).map s''.symbolTypes.get? = resolved.map (some ·.2) ∧
        ∀ p ∈ (bound.map (·.1)).zip resolved, ∀ a ∈ p.1.ascription,
          s''.findings.type? a = some p.2.2 := by
  induction bound generalizing k s' with
  | nil =>
    unfold resolveParams
    rw [after_pure]
    exact ⟨hp, .refl s', rfl, rfl, by simp⟩
  | cons b rest ih =>
    obtain ⟨param, id⟩ := b
    have hparam : params[k]? = some param := by
      rw [← List.head?_drop, ← hparams]
      rfl
    have hrest : rest.map (·.1) = params.drop (k + 1) := by
      rw [← List.tail_drop, ← hparams]
      rfl
    unfold resolveParams
    simp only [after_bind, after_setSymbolType, after_pure, List.head?_drop, List.tail_drop]
    refine (h.parameterType_spec hnot hp hk hparam (hc (param, id) (by simp)) he hw).mono ?_
    rintro ty s1 ⟨hp1, hlater1, hw1, hrule, hascribed⟩
    obtain ⟨hp2, hlater2, hw2⟩ := hp1.bindParameter hvalue (h.unrecorded hp1 hnot) hnodup hw1 hrule
    obtain ⟨name, hsym⟩ := (hw (id, k) (by simp)).1
    refine (ih hp2 hrest (fun b hb => hc b (by simp [hb])) (he.later (hlater1.trans hlater2))
      (List.nodup_cons.mp hnodup).2 hw2).mono ?_
    rintro resolved s3 ⟨hp3, hlater3, hnames, htypes, hzip⟩
    refine ⟨hp3, hlater1.trans (hlater2.trans hlater3), by simp [hnames], ?_, ?_⟩
    · have hsym1 : s1.table.symbol? id = some ⟨name, .parameter i k⟩ := hlater1.table ▸ hsym
      have hkept := hlater3.symbolType hsym1 (by simp) (OrderedMap.get?_insert_self _ _ _)
      simp only [List.map_cons, htypes, hkept]
    · intro p hp' a ha
      rcases List.mem_cons.mp hp' with rfl | hp'
      · exact (hlater2.trans hlater3).type (hascribed a ha)
      · exact hzip p hp' a ha

theorem resolveLambdaParams_spec (hvalue : ctx.tree.isTypeRef i = false) (hnot : ¬ s.Recorded i)
    (hk : ctx.tree.kind? i = some (.lambda params body)) {ids : List SymbolId}
    (hc : ∀ p ∈ params, ∀ a ∈ p.ascription, ctx.tree.Child i a ∧ ctx.tree.isTypeRef a = true)
    (he : s.Awaits ctx root wanted i expected)
    (hlen : ids.length = (parameterNames ctx params).length) (hnodup : ids.Nodup)
    (hw : Waiting i s 0 ids) :
    (resolveLambdaParams ctx resolve params ids (expectedParams expected)).After s fun found s' =>
      Progress ctx root wanted i s s' ∧ Later ctx root wanted s s' ∧
        s'.findings.ParametersTyped ctx params ids found.1 found.2 ∧
        ∃ rest, Waiting i s' 0 rest ∧ ∀ id ∈ ids, id ∈ found.2 ∨ id ∈ rest := by
  unfold resolveLambdaParams Findings.ParametersTyped
  unfold parameterNames at hlen
  by_cases hempty : params.isEmpty = true
  · simp only [hempty, if_true] at hlen ⊢
    obtain ⟨id, rfl⟩ := List.length_eq_one_iff.mp hlen
    cases hwanted : expectedParams expected with
    | nil => exact ⟨.refl i s, .refl s, Or.inl ⟨rfl, rfl⟩, [id], hw, fun _ => Or.inr⟩
    | cons p rest =>
      simp only [after_bind, after_setSymbolType, after_pure]
      obtain ⟨hp, hlater, -⟩ := (Progress.refl i s).bindParameter hvalue hnot hnodup hw
        fun hclean => he.parameter hclean hk (by simp [List.isEmpty_iff.mp hempty]) (by
          rw [hwanted]
          rfl)
      exact ⟨hp, hlater, Or.inr ⟨id, p.2, rfl, rfl, OrderedMap.get?_insert_self _ _ _, rfl⟩, [],
        by simp [Waiting], fun _ => Or.inl⟩
  · simp only [hempty, Bool.false_eq_true, if_false, List.length_map] at hlen ⊢
    have hfst : (params.zip ids).map (·.1) = params := List.map_fst_zip (Nat.le_of_eq hlen.symm)
    have hsnd : (params.zip ids).map (·.2) = ids := List.map_snd_zip (Nat.le_of_eq hlen)
    simp only [after_bind, after_pure]
    refine (h.resolveParams_spec (k := 0) hvalue hnot hk (.refl i s) hfst ?_ he (hsnd.symm ▸ hnodup)
      (hsnd.symm ▸ hw)).mono ?_
    · intro b hb
      exact hc b.1 (hfst ▸ List.mem_map_of_mem hb)
    · rintro resolved s' ⟨hp, hlater, hnames, htypes, hascribed⟩
      rw [hsnd] at htypes ⊢
      rw [hfst] at hascribed
      refine ⟨hp, hlater, ⟨rfl, ?_, htypes, hascribed⟩, [], by simp [Waiting], fun _ => Or.inl⟩
      rw [hnames]
      nth_rewrite 2 [← hfst]
      rw [List.map_map]
      rfl

/-! ## A lambda -/

theorem resolveLambda_spec (hr : Ready ctx root s i) (hnot : ¬ s.Recorded i)
    (hk : ctx.tree.kind? i = some (.lambda params body)) (hsc : s₀.nodes.scopes? i = some scopes)
    (he : s.Awaits ctx root wanted i expected) :
    (resolveLambda ctx resolve scopes.inner params body expected).After s
      (Answer ctx root wanted i scopes (.lambda params body) s) := by
  have hvalue : ctx.tree.isTypeRef i = false := by simp [Tree.isTypeRef, hk, NodeKind.isTypeRef]
  have hchild : ∀ {c}, c ∈ params.filterMap (·.ascription) ++ [body] → ctx.tree.Child i c :=
    (Tree.child_of_kind hk).mpr
  obtain ⟨τ, ids, hinner, hscope, hids, -⟩ := h.layout.rule h.reaches hsc hk
  have hscope' : s.table.scope? τ = some ⟨some scopes.scope, ids⟩ := h.held.later.table ▸ hscope
  have hlen : ids.length = (parameterNames ctx params).length := by
    simpa using congrArg List.length hids
  have hnodup : ids.Nodup := by
    have hplaces : ((parameterNames ctx params).zipIdx.map (·.2)).Nodup := by
      simp [List.zipIdx_map_snd, List.nodup_range']
    refine List.Nodup.of_map s₀.table.symbol? (hids ▸ (List.Nodup.of_map _ hplaces).map ?_)
    rintro ⟨name, j⟩ ⟨name', j'⟩ heq
    simpa using heq
  have hw : Waiting i s 0 ids := by
    rintro ⟨id, k⟩ hid
    have hplace := congrArg (·[k]?) hids
    simp only [List.getElem?_map, List.mk_mem_zipIdx_iff_getElem?.mp hid, Option.map_some,
      List.getElem?_zipIdx, Option.map_map] at hplace
    obtain ⟨name, -, hsym₀⟩ := Option.map_eq_some_iff.mp hplace.symm
    simp only [Function.comp_apply, Nat.zero_add] at hsym₀
    have hsym : s.table.symbol? id = some ⟨name, .parameter i k⟩ := h.held.later.table ▸ hsym₀.symm
    exact ⟨⟨name, hsym⟩, hr.params hsym (.refl _ i) hnot⟩
  have hascriptions : ∀ p ∈ params, ∀ a ∈ p.ascription,
      ctx.tree.Child i a ∧ ctx.tree.isTypeRef a = true := by
    intro p hp a ha
    have hmem : a ∈ params.filterMap (·.ascription) := List.mem_filterMap.mpr ⟨p, hp, ha⟩
    exact ⟨hchild (List.mem_append_left _ hmem), (h.layout.types i _ h.reaches hk).1 a hmem⟩
  unfold resolveLambda
  simp only [after_bind, after_get, hinner, Option.bind_some, hscope', Option.map_some,
    Option.getD_some]
  refine (h.resolveLambdaParams_spec hvalue hnot hk hascriptions he hlen hnodup hw).mono ?_
  rintro ⟨resolved, bound⟩ s1 ⟨hp1, hlater1, htyped, rest, hrest, hbound⟩
  simp only [after_pure]
  refine (h.visit_waiting hnot hp1 (hchild (by simp)) hrest
    ((he.later hlater1).child h.reaches hk fun _ t ht => ⟨rfl, ht⟩)).mono ?_
  rintro result s2 ⟨hp2, hlater2, hbody, hwaiting⟩
  refine h.answer hnot hp2 (fun hclean id name k hsym hset => ?_) fun hclean => ?_
  · -- The parameters that the lambda leaves out are still without a type.
    have hsym₀ : s₀.table.symbol? id = some ⟨name, .parameter i k⟩ :=
      (h.held_after hp2).later.table ▸ hsym
    obtain ⟨-, σ, τ', ids', hsc', hscope₀, hid⟩ :=
      h.layout.accounted.parameter (h.layout.base_le hsym₀ (by simp)) hsym₀
    rw [hsc'] at hsc
    cases hsc
    cases hinner
    rw [hscope] at hscope₀
    cases hscope₀
    refine ⟨bound, rfl, (hbound id hid).resolve_right fun hmem => hset ?_⟩
    obtain ⟨k', hk', rfl⟩ := List.getElem_of_mem hmem
    exact (hwaiting (Or.inr hclean) (rest[k'], k')
      (List.mk_mem_zipIdx_iff_getElem?.mpr (List.getElem?_eq_getElem hk'))).2
  · refine ⟨τ, ⟨some scopes.scope, ids⟩, resolved, bound, result, hinner, ?_, hbody, rfl, rfl,
      htyped.mono (hlater2.trace hclean).extends_⟩
    rw [show s2.findings.table = s.table from hp2.later.table]
    exact hscope'

end Resolving

end ScriptTyping
