import ScriptTyping.Proofs.Expressions

/-!
# Declarations and assignments

While a declaration is in progress nothing can ask for it. At the end it gives its symbol a type
for the first time.
-/

namespace ScriptTyping

open Session Check

variable {ctx : Context} {root c i n : NodeIndex} {base id : Nat} {wanted : Option Ty}
  {s₀ s s' s'' : Session} {ty : Ty} {name : String} {scopes : NodeScopes}

/-! ## In progress -/

theorem Later.setProgress (s : Session) (inProgress : List NodeIndex) :
    Later ctx root wanted s { s with inProgress := inProgress } :=
  ⟨rfl, rfl, fun _ => rfl, fun h => h, fun _ _ h => h, ⟨[], by simp⟩, fun h => Or.inl h,
    fun _ => Relation.ReflTransGen.refl⟩

theorem Session.settled_begin {d : NodeIndex} (h : s.Settled d) :
    Session.Settled { s with inProgress := s.inProgress.insert i } d :=
  h.imp_right List.mem_insert_of_mem

theorem Held.begin (h : Held ctx root wanted s₀ s) (hr : Ready ctx root s i) :
    Held ctx root wanted s₀ { s with inProgress := s.inProgress.insert i } := by
  refine ⟨h.later.trans (.setProgress s _), h.limit, ?_, h.sources, ?_⟩
  · intro x d hx hd hdecl habove
    rcases List.mem_insert_iff.mp hx with rfl | hx
    · exact settled_begin (hr.ancestors hd hdecl habove)
    · exact settled_begin (h.ancestors hx hd hdecl habove)
  · intro id name l j hsym hset
    rcases h.params hsym hset with hrec | hopen
    · exact Or.inl hrec
    · exact Or.inr fun hd hdecl habove => settled_begin (hopen hd hdecl habove)

theorem Ready.begin (h : Ready ctx root s i) (hp : ctx.tree.Proper root)
    (hi : ctx.tree.Reaches root i) :
    Busy ctx root { s with inProgress := s.inProgress.insert i } i := by
  refine ⟨?_, ?_, fun hsym habove hnot => h.params hsym habove.reaches hnot⟩
  · intro d hd hdecl hdi
    rcases hdi.eq_or_above with rfl | habove
    · exact Or.inr List.mem_insert_self
    · exact settled_begin (h.ancestors hd hdecl habove)
  · intro x hx habove
    rcases List.mem_insert_iff.mp hx with rfl | hx
    · exact hp.acyclic hi habove
    · exact h.below hx habove.reaches

theorem Ready.filter_insert (h : Ready ctx root s i) :
    (s.inProgress.insert i).filter (· ≠ i) = s.inProgress := by
  have hnot : i ∉ s.inProgress := fun hmem => h.below hmem (.refl _ i)
  rw [List.insert_of_not_mem hnot, List.filter_cons_of_neg (by simp)]
  apply List.filter_eq_self.mpr
  intro x hx
  have hne : x ≠ i := by
    rintro rfl
    exact hnot hx
  simpa using hne

namespace Resolving

variable {resolve : Resolver}

theorem resolveInitializer_spec (h : Resolving ctx root base wanted s₀ resolve i s) {isConst : Bool}
    {ascription : Option NodeIndex} {initializer : NodeIndex}
    (hk : ctx.tree.kind? i = some (.declaration name isConst ascription initializer)) :
    (resolveInitializer ctx resolve isConst ascription initializer).After s fun ty s' =>
      Progress ctx root wanted i s s' ∧
        (s'.diagnostics = [] → s'.findings.Declares ctx isConst ascription initializer ty) := by
  have hchild : ∀ {c}, c ∈ ascription.toList ++ [initializer] → ctx.tree.Child i c :=
    (Tree.child_of_kind hk).mpr
  unfold resolveInitializer
  cases ascription with
  | none =>
    simp only [after_bind, after_pure]
    refine (h.visit (.refl i s) (hchild (by simp)) .none).mono ?_
    rintro value s1 ⟨hp1, -, hvalue⟩
    exact ⟨hp1, fun _ => ⟨value, hvalue, rfl⟩⟩
  | some a =>
    simp only [after_bind, after_pure]
    refine (h.visit (.refl i s) (hchild (by simp)) .none).mono ?_
    rintro ascribed s1 ⟨hp1, -, hascribed⟩
    refine (h.visit hp1 (hchild (by simp)) (Awaits.none.child h.reaches hk ?_)).mono ?_
    · rintro - t ⟨⟩
      exact ⟨rfl, hascribed⟩
    · rintro value s2 ⟨hp2, hlater2, hvalue⟩
      refine (checkAssignable_spec hp2).mono ?_
      rintro - s3 ⟨hp3, hlater3, hfits⟩
      exact ⟨hp3, fun hclean => ⟨value, hlater3.type hvalue,
        (hlater2.trans hlater3).type hascribed, hfits hclean⟩⟩

end Resolving

/-! ## A declaration -/

theorem resolveDeclaration_spec {resolve : Resolver} (hL : Layout ctx root base s₀)
    (hresolver : Resolves ctx root wanted s₀ resolve) (hheld : Held ctx root wanted s₀ s)
    (hi : ctx.tree.Reaches root i) (hr : Ready ctx root s i) (hnot : ¬ s.Recorded i)
    {isConst : Bool} {ascription : Option NodeIndex} {initializer : NodeIndex}
    (hk : ctx.tree.kind? i = some (.declaration name isConst ascription initializer)) :
    (resolveDeclaration ctx resolve i isConst ascription initializer).After s
      (Answer ctx root wanted i scopes (.declaration name isConst ascription initializer) s) := by
  have h : Resolving ctx root base wanted s₀ resolve i
      { s with inProgress := s.inProgress.insert i } :=
    ⟨hL, hresolver, hheld.begin hr, hi, Or.inr (hr.begin hL.proper hi)⟩
  unfold resolveDeclaration beginDeclaration endDeclaration
  simp only [after_bind, after_modify, after_get]
  refine (h.resolveInitializer_spec hk).mono ?_
  rintro ty s1 ⟨hp, hdeclares⟩
  have hheld1 := h.held_after hp
  have hnot1 : ¬ s1.Recorded i := h.unrecorded hp hnot
  obtain ⟨sc, kind, -, -, hk', hrule⟩ := hL.wired hi
  rw [hk] at hk'
  cases hk'
  obtain ⟨-, ⟨id, hid₀⟩, -⟩ := hrule
  obtain ⟨-, -, name', c', a', ini', hkd, hsym₀⟩ := hL.accounted.declared hid₀
  rw [hk] at hkd
  cases hkd
  have hid : s1.declared.get? i = some id := hheld1.later.declared ▸ hid₀
  have hsym : s1.table.symbol? id = some ⟨name, .source i isConst⟩ := hheld1.later.table ▸ hsym₀
  simp only [hid, after_bind, after_setSymbolType, after_pure]
  have hprogress : s1.inProgress.filter (· ≠ i) = s.inProgress := by
    rw [hp.inProgress]
    exact hr.filter_insert
  rw [hprogress]
  have hfree : s1.symbolTypes.get? id = none := by
    by_contra hset
    exact hnot1 (hheld1.sources hsym hset)
  have hset : Later ctx root wanted { s1 with inProgress := s.inProgress } { s1 with
      inProgress := s.inProgress
      symbolTypes := s1.symbolTypes.insert id ty } :=
    .setSymbol hsym (fun _ => hfree) fun hclean =>
      ⟨by simp [hfree], ⟨name, ascription, initializer, hk, hdeclares hclean⟩, by simp⟩
  have hlater := (((Later.setProgress s _).trans hp.later).trans
    (Later.setProgress s1 s.inProgress)).trans hset
  have hother : ∀ {id'}, id ≠ id' → (s1.symbolTypes.insert id ty).get? id' =
      s1.symbolTypes.get? id' := fun hne => OrderedMap.get?_insert_of_ne _ hne _
  refine ⟨⟨hlater, rfl, hp.depth, ?_, ?_⟩, ?_, hnot1, ?_, fun _ => trivial⟩
  · intro m hm
    exact (hp.nodes hm).imp_right fun hw => hw.mono settled_begin
  · intro id' name' l j hsym' hset'
    have hne : id ≠ id' := by
      rintro rfl
      rw [show s.table.symbol? id = _ from hp.later.table ▸ hsym] at hsym'
      cases hsym'
    rw [hother hne] at hset'
    exact hp.params hsym' hset'
  · intro id' name' d c hsym' hset'
    by_cases hne : id = id'
    · subst hne
      rw [show s.table.symbol? id = _ from hp.later.table ▸ hsym] at hsym'
      cases hsym'
      exact Or.inr (Or.inr rfl)
    · rw [hother hne] at hset'
      exact (hp.sources hsym' hset').imp_right Or.inl
  · intro hclean
    exact ⟨id, ty, rfl, rfl, hsym, OrderedMap.get?_insert_self _ _ _,
      (hdeclares hclean).mono (hset.trace hclean).extends_⟩

/-! ## An assignment -/

theorem Held.bound (h : Held ctx root wanted s₀ s) (hL : Layout ctx root base s₀)
    (hclean : s.diagnostics = []) (hn : ctx.tree.Reaches root n)
    (hname : ctx.tree.identifier? n = some name) (hrec : s.Recorded n) :
    ∃ id, boundSymbol? s n = some id := by
  obtain ⟨⟨sc, ty, binding⟩, hr⟩ := hrec
  obtain ⟨kind, hk, hrule⟩ := (h.later.trace hclean).rule (hL.unresolved hn) hr
  unfold Tree.identifier? at hname
  rw [hk] at hname
  cases kind with
  | identifier name' =>
    obtain ⟨id, -, hbinding, -⟩ := hrule
    cases hbinding
    exact ⟨id, by simp [boundSymbol?, hr]⟩
  | _ => simp at hname

theorem boundSymbol?_eq_some : boundSymbol? s i = some id ↔
    ∃ r, s.nodes.resolution? i = some r ∧ r.binding = .symbol id := by
  unfold boundSymbol?
  split
  · rename_i sc ty id' hr
    simp [hr]
  · rename_i hnot
    simp only [reduceCtorEq, false_iff, not_exists, not_and]
    rintro ⟨sc, ty, binding⟩ hr rfl
    exact hnot sc ty id hr

theorem Resolving.resolveAssignment_spec {resolve : Resolver}
    (h : Resolving ctx root base wanted s₀ resolve i s) (hnot : ¬ s.Recorded i)
    {target value : NodeIndex} (hk : ctx.tree.kind? i = some (.assignment target value)) :
    (resolveAssignment ctx resolve target value).After s
      (Answer ctx root wanted i scopes (.assignment target value) s) := by
  have hchild : ∀ {c}, c ∈ [target, value] → ctx.tree.Child i c := (Tree.child_of_kind hk).mpr
  have htarget : ctx.tree.Child i target := hchild (by simp)
  unfold resolveAssignment
  split
  · simp only [after_bind, after_reportAt, after_pure]
    refine (h.visit (.refl i s) htarget .none).mono ?_
    rintro _ s1 ⟨hp1, -⟩
    refine (h.visit hp1 (hchild (by simp)) .none).mono ?_
    rintro _ s2 ⟨hp2, -⟩
    exact h.answer_reported hnot (hp2.report _) (by simp)
  · rename_i name hname
    simp only [after_bind, after_get]
    refine (h.visit (.refl i s) htarget .none).mono ?_
    rintro targetTy s1 ⟨hp1, -, htargetTy⟩
    have hexpects : s1.Awaits ctx root wanted value (some targetTy) :=
      Awaits.none.child h.reaches hk fun _ t ht => ⟨rfl, htargetTy.trans ht⟩
    split
    · rename_i hunbound
      simp only [after_bind, after_pure]
      refine (h.visit hp1 (hchild (by simp)) .none).mono ?_
      rintro _ s2 ⟨hp2, hlater2, -⟩
      refine h.answer hnot hp2 (fun _ => trivial) fun hclean => ?_
      obtain ⟨id, hbound⟩ := (h.held_after hp1).bound h.layout (hlater2.clean hclean)
        (h.reaches.tail htarget) hname (recorded_iff.mpr ⟨targetTy, htargetTy⟩)
      simp [hunbound] at hbound
    · rename_i id hbound
      obtain ⟨assigned, hassigned, hbinding⟩ := boundSymbol?_eq_some.mp hbound
      have hty : assigned.ty = targetTy := by
        simpa [Findings.type?, NodeStates.type?, Session.findings, hassigned] using htargetTy
      split
      · simp only [after_bind, after_reportAt, after_pure]
        refine (h.visit (hp1.report _) (hchild (by simp)) (.of_reported (by simp))).mono ?_
        rintro _ s2 ⟨hp2, hlater2, -⟩
        exact h.answer_reported hnot hp2 fun hclean => by simpa using hlater2.clean hclean
      · rename_i hconst
        simp only [after_bind, after_pure]
        refine (h.visit hp1 (hchild (by simp)) hexpects).mono ?_
        rintro given s2 ⟨hp2, hlater2, hgiven⟩
        refine (checkAssignable_spec hp2).mono ?_
        rintro - s3 ⟨hp3, hlater3, hfits⟩
        refine h.answer hnot hp3 (fun _ => trivial) fun hclean => ?_
        have hlater := hlater2.trans hlater3
        refine ⟨name, id, assigned, given, hname, hlater.resolution hassigned, hbinding, ?_,
          hlater3.type hgiven, hty ▸ hfits hclean, rfl, rfl⟩
        rw [show s3.findings.table = s1.table from hlater.table]
        simpa using hconst

end ScriptTyping
