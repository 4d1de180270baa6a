import ScriptTyping.Proofs.Declarations

/-!
# Calls and member reads by their rules

The arguments of a call are resolved lambdas last, and their types put back in the order of the
text.
-/

namespace ScriptTyping

open Session Check

variable {ctx : Context} {root c i n : NodeIndex} {base id : Nat} {wanted : Option Ty}
  {s₀ s s' s'' : Session} {ty : Ty} {name : String} {scopes : NodeScopes} {expected : Option Ty}

/-! ## The order of the arguments -/

theorem mem_argumentsOf_iff {arguments : List NodeIndex} {params : List (String × Ty)}
    {a : Argument} : a ∈ argumentsOf arguments params ↔ arguments[a.place]? = some a.node ∧
      ∃ name, params[a.place]? = some (name, a.parameter) := by
  obtain ⟨place, node, parameter⟩ := a
  simp only [argumentsOf, List.mem_map, Prod.exists, List.mk_mem_zipIdx_iff_getElem?,
    List.getElem?_zip_eq_some, Argument.mk.injEq]
  constructor
  · rintro ⟨node, name, parameter, place, ⟨h1, h2⟩, rfl, rfl, rfl⟩
    exact ⟨h1, name, h2⟩
  · rintro ⟨h1, name, h2⟩
    exact ⟨node, name, parameter, place, ⟨h1, h2⟩, rfl, rfl, rfl⟩

theorem foldl_set_place {order : List Argument} {arguments : List NodeIndex}
    {v : NodeIndex → Ty} {types : List Ty} (hlen : types.length = arguments.length)
    (horder : ∀ a ∈ order, arguments[a.place]? = some a.node) {k : Nat} (hk : k < arguments.length) :
    (order.foldl (fun ts a => ts.set a.place (v a.node)) types)[k]? =
      if ∃ a ∈ order, a.place = k then some (v arguments[k]) else types[k]? := by
  induction order generalizing types with
  | nil => simp
  | cons a rest ih =>
    have ha := horder a (by simp)
    rw [List.foldl_cons, ih (by simpa using hlen) fun b hb => horder b (by simp [hb])]
    by_cases hrest : ∃ b ∈ rest, b.place = k
    · obtain ⟨b, hb, hbk⟩ := hrest
      rw [if_pos ⟨b, hb, hbk⟩, if_pos ⟨b, by simp [hb], hbk⟩]
    · rw [if_neg hrest]
      by_cases hak : a.place = k
      · have hnode : arguments[k] = a.node := by
          rw [hak, List.getElem?_eq_getElem hk] at ha
          exact Option.some.inj ha
        rw [if_pos ⟨a, by simp, hak⟩, hnode, hak, List.getElem?_set_self (by omega)]
      · rw [if_neg, List.getElem?_set_ne hak]
        rintro ⟨b, hb, hbk⟩
        rcases List.mem_cons.mp hb with rfl | hb
        · exact hak hbk
        · exact hrest ⟨b, hb, hbk⟩

theorem foldl_set_all {arguments : List NodeIndex} {params : List (String × Ty)}
    {v : NodeIndex → Ty} {types : List Ty} (hlen : types.length = arguments.length)
    (hparams : params.length = arguments.length) :
    (resolutionOrder ctx (argumentsOf arguments params)).foldl
      (fun ts a => ts.set a.place (v a.node)) types = arguments.map v := by
  have hset : ∀ (order : List Argument) (ts : List Ty),
      (order.foldl (fun ts a => ts.set a.place (v a.node)) ts).length = ts.length := by
    intro order
    induction order with
    | nil => simp
    | cons a rest ih =>
      intro ts
      rw [List.foldl_cons, ih, List.length_set]
  apply List.ext_getElem?
  intro k
  by_cases hk : k < arguments.length
  · rw [foldl_set_place hlen (fun a ha =>
      (mem_argumentsOf_iff.mp ((resolutionOrder_perm ctx _).mem_iff.mp ha)).1) hk, if_pos]
    · simp [hk]
    · have hk' : k < params.length := by omega
      refine ⟨⟨k, arguments[k], params[k].2⟩, (resolutionOrder_perm ctx _).mem_iff.mpr ?_, rfl⟩
      exact mem_argumentsOf_iff.mpr ⟨List.getElem?_eq_getElem hk, params[k].1,
        List.getElem?_eq_getElem hk'⟩
  · rw [List.getElem?_eq_none (by rw [hset]; omega), List.getElem?_eq_none (by simpa using hk)]

/-! ## Calls -/

namespace Resolving

variable {resolve : Resolver} (h : Resolving ctx root base wanted s₀ resolve i s)

include h

theorem resolveArguments_spec {callee : NodeIndex} {arguments : List NodeIndex}
    {trailing : Option NodeIndex} {params : List (String × Ty)} {result : Ty}
    {before order : List Argument} {inference : Inference} {types : List Ty}
    (hk : ctx.tree.kind? i = some (.invocation callee arguments trailing))
    (hp : Progress ctx root wanted i s s')
    (hcallee : s'.findings.type? callee = some (.func params result))
    (hsplit : resolutionOrder ctx (argumentsOf (arguments ++ trailing.toList) params) =
      before ++ order)
    (horder : ∀ a ∈ order, ctx.tree.Child i a.node)
    (hinfers : s'.findings.Infers ctx (Ty.func params result).freeParams before inference) :
    (resolveArguments ctx resolve order inference types).After s' fun found s'' =>
      Progress ctx root wanted i s s'' ∧ Later ctx root wanted s' s'' ∧
        (∀ a ∈ order, ∃ ty, s''.findings.type? a.node = some ty) ∧
        found.1 = order.foldl (fun i a => i.infer ctx.env.definitions a.parameter
          ((s''.findings.type? a.node).getD .unknown)) inference ∧
        found.2 = order.foldl (fun ts a => ts.set a.place
          ((s''.findings.type? a.node).getD .unknown)) types := by
  induction order generalizing before inference types s' with
  | nil => exact ⟨hp, .refl s', by simp, rfl, rfl⟩
  | cons a rest ih =>
    unfold resolveArguments
    simp only [after_bind]
    refine (h.visit hp (horder a (by simp)) (Awaits.none.child h.reaches hk ?_)).mono ?_
    · rintro - t ⟨⟩
      exact ⟨params, result, before, a, rest, inference, hcallee, hsplit, rfl, hinfers, rfl⟩
    · rintro ty s1 ⟨hp1, hlater1, hty⟩
      refine (ih hp1 (hlater1.type hcallee) (hsplit.trans (List.append_cons before a rest))
        (fun b hb => horder b (by simp [hb])) (.argument (hinfers.mono hlater1.type) hty)).mono ?_
      rintro found s2 ⟨hp2, hlater2, htypes, hinference, hset⟩
      refine ⟨hp2, hlater1.trans hlater2, ?_, ?_, ?_⟩
      · intro b hb
        rcases List.mem_cons.mp hb with rfl | hb
        · exact ⟨ty, hlater2.type hty⟩
        · exact htypes b hb
      · rw [hinference, List.foldl_cons, hlater2.type hty, Option.getD_some]
      · rw [hset, List.foldl_cons, hlater2.type hty, Option.getD_some]

omit h in
theorem checkArguments_spec {checked : List ((NodeIndex × Ty) × String × Ty)}
    (hp : Progress ctx root wanted i s s') :
    (checked.forM fun ((argument, ty), param) => checkArgument ctx argument ty param.2).After s'
      fun _ s'' => Progress ctx root wanted i s s'' ∧ Later ctx root wanted s' s'' ∧
        (s''.diagnostics = [] → ∀ p ∈ checked, Fits ctx p.1.2 p.2.2) := by
  induction checked generalizing s' with
  | nil => exact ⟨hp, .refl s', by simp⟩
  | cons p rest ih =>
    rw [after_forM_cons]
    have hfirst : (checkArgument ctx p.1.1 p.1.2 p.2.2).After s' fun _ s1 =>
        Progress ctx root wanted i s s1 ∧ Later ctx root wanted s' s1 ∧
          (s1.diagnostics = [] → Fits ctx p.1.2 p.2.2) := by
      unfold checkArgument
      split
      · rename_i hfits
        exact ⟨hp, .refl s', fun _ => fits_iff.mpr hfits⟩
      · rw [after_reportAt]
        exact ⟨hp.report _, .report s' _, by simp⟩
    refine hfirst.mono ?_
    rintro - s1 ⟨hp1, hlater1, hfits⟩
    refine (ih hp1).mono ?_
    rintro - s2 ⟨hp2, hlater2, hrest⟩
    refine ⟨hp2, hlater1.trans hlater2, fun hclean q hq => ?_⟩
    rcases List.mem_cons.mp hq with rfl | hq
    · exact hfits (hlater2.clean hclean)
    · exact hrest hclean q hq

theorem resolveUnmatched_spec {arguments : List NodeIndex} {params : List (String × Ty)}
    (hp : Progress ctx root wanted i s s') (hc : ∀ c ∈ arguments, ctx.tree.Child i c)
    (hreported : s'.diagnostics = [] → params = []) :
    (resolveUnmatched resolve arguments params).After s' fun _ s'' =>
      Progress ctx root wanted i s s'' ∧ Later ctx root wanted s' s'' ∧
        ∃ types, s''.findings.HaveTypes arguments types := by
  induction arguments generalizing params s' with
  | nil => exact ⟨hp, .refl s', [], rfl⟩
  | cons c rest ih =>
    unfold resolveUnmatched
    simp only [after_bind]
    refine (h.visit hp (hc c (by simp)) ?_).mono ?_
    · intro hclean t ht
      simp [hreported hclean] at ht
    · rintro ty s1 ⟨hp1, hlater1, hty⟩
      refine (ih hp1 (fun c' hc' => hc c' (by simp [hc'])) fun hclean => by
        simp [hreported (hlater1.clean hclean)]).mono ?_
      rintro - s2 ⟨hp2, hlater2, types, htypes⟩
      exact ⟨hp2, hlater1.trans hlater2, ty :: types, htypes.cons (hlater2.type hty)⟩

theorem resolveCall_spec (hnot : ¬ s.Recorded i) {callee : NodeIndex} {arguments : List NodeIndex}
    {trailing : Option NodeIndex} {params : List (String × Ty)} {result : Ty}
    (hk : ctx.tree.kind? i = some (.invocation callee arguments trailing))
    (hp : Progress ctx root wanted i s s')
    (hcallee : s'.findings.type? callee = some (.func params result))
    (hlen : params.length = (arguments ++ trailing.toList).length) :
    (resolveCall ctx resolve (.func params result) params (arguments ++ trailing.toList)).After s'
      (Answer ctx root wanted i scopes (.invocation callee arguments trailing) s) := by
  have hchild : ∀ {c}, c ∈ arguments ++ trailing.toList → ctx.tree.Child i c := fun hc =>
    (Tree.child_of_kind hk).mpr (List.mem_cons_of_mem _ hc)
  unfold resolveCall
  simp only [after_bind]
  refine (h.resolveArguments_spec hk hp hcallee (List.nil_append _).symm
    (fun a ha => hchild (mem_resolutionOrder ha).1) .start).mono ?_
  rintro ⟨inference, types⟩ s1 ⟨hp1, hlater1, hrecorded, hinference, htypes⟩
  replace hinference : inference = callInference ctx (.func params result) params
      (arguments ++ trailing.toList) fun i => (s1.findings.type? i).getD .unknown := hinference
  simp only at htypes
  rw [foldl_set_all (v := fun a => (s1.findings.type? a).getD .unknown) (by simp) hlen] at htypes
  have hall : ∀ a ∈ arguments ++ trailing.toList, ∃ ty, s1.findings.type? a = some ty := by
    intro a ha
    obtain ⟨k, hk', rfl⟩ := List.getElem_of_mem ha
    have hk'' : k < params.length := by omega
    exact hrecorded ⟨k, (arguments ++ trailing.toList)[k], params[k].2⟩
      ((resolutionOrder_perm ctx _).mem_iff.mpr (mem_argumentsOf_iff.mpr
        ⟨List.getElem?_eq_getElem hk', params[k].1, List.getElem?_eq_getElem hk''⟩))
  have hhave : s1.findings.HaveTypes (arguments ++ trailing.toList) types := by
    unfold Findings.HaveTypes
    rw [htypes, List.map_map]
    apply List.map_congr_left
    intro a ha
    obtain ⟨ty, hty⟩ := hall a ha
    simp [hty]
  have hinst := Ty.instantiate_func params result inference.finish
  simp only [hinst, after_bind, after_pure]
  refine (checkArguments_spec hp1).mono ?_
  rintro - s2 ⟨hp2, hlater2, hfits⟩
  refine h.answer hnot hp2 (fun _ => trivial) fun hclean => ?_
  refine ⟨.func params result, types, (hlater1.trans hlater2).type hcallee,
    hlater2.haveTypes hhave, Or.inr ⟨params, result, _, rfl, hlen, ?_, rfl, ?_⟩⟩
  · have hsame : ∀ a ∈ arguments ++ trailing.toList,
        (s2.findings.type? a).getD .unknown = (s1.findings.type? a).getD .unknown := by
      intro a ha
      obtain ⟨ty, hty⟩ := hall a ha
      rw [hty, hlater2.type hty]
    rw [← hinst, hinference, callInference_congr hsame]
  · intro p hp'
    have hlen' : types.length ≤ (arguments ++ trailing.toList).length := by simp [htypes]
    rw [← List.map_snd_zip hlen', List.zip_map_left] at hp'
    obtain ⟨q, hq, rfl⟩ := List.mem_map.mp hp'
    exact hfits hclean q hq

theorem resolveInvocation_spec (hnot : ¬ s.Recorded i) {callee : NodeIndex}
    {arguments : List NodeIndex} {trailing : Option NodeIndex}
    (hk : ctx.tree.kind? i = some (.invocation callee arguments trailing)) :
    (resolveInvocation ctx resolve i callee (arguments ++ trailing.toList)).After s
      (Answer ctx root wanted i scopes (.invocation callee arguments trailing) s) := by
  have hchild : ∀ {c}, c ∈ callee :: (arguments ++ trailing.toList) → ctx.tree.Child i c :=
    (Tree.child_of_kind hk).mpr
  have harguments : ∀ c ∈ arguments ++ trailing.toList, ctx.tree.Child i c := fun c hc =>
    hchild (List.mem_cons_of_mem _ hc)
  unfold resolveInvocation
  simp only [after_bind]
  refine (h.visit (.refl i s) (hchild (by simp)) .none).mono ?_
  rintro calleeTy s1 ⟨hp1, -, hcallee⟩
  split
  · rename_i params result
    split
    · rename_i hlen
      exact h.resolveCall_spec hnot hk hp1 hcallee hlen
    · simp only [after_bind, after_reportAt, after_pure]
      refine (h.resolveUnmatched_spec (hp1.report _) harguments (by simp)).mono ?_
      rintro - s2 ⟨hp2, hlater2, -⟩
      exact h.answer_reported hnot hp2 fun hclean => by simpa using hlater2.clean hclean
  · split
    · simp only [after_bind, after_reportAt, after_pure]
      refine (h.resolveUnmatched_spec (hp1.report _) harguments (by simp)).mono ?_
      rintro - s2 ⟨hp2, hlater2, -⟩
      exact h.answer_reported hnot hp2 fun hclean => by simpa using hlater2.clean hclean
    · rename_i hunknown
      have hty : calleeTy = .unknown := by
        cases calleeTy <;> simp [Ty.isUnknown] at hunknown ⊢
      simp only [after_bind, after_pure]
      refine (h.resolveUnmatched_spec hp1 harguments (by simp)).mono ?_
      rintro - s2 ⟨hp2, hlater2, types, htypes⟩
      refine h.answer hnot hp2 (fun _ => trivial) fun _ => ?_
      exact ⟨calleeTy, types, hlater2.type hcallee, htypes, Or.inl ⟨hty, rfl, rfl⟩⟩

/-! ## Member reads -/

theorem resolveMember_spec (hnot : ¬ s.Recorded i) {object : NodeIndex} {member : String}
    (hk : ctx.tree.kind? i = some (.memberAccess object member)) :
    (resolveMember ctx resolve i object member).After s
      (Answer ctx root wanted i scopes (.memberAccess object member) s) := by
  have hchild : ctx.tree.Child i object :=
    (Tree.child_of_kind hk).mpr (by simp [NodeKind.children])
  unfold resolveMember
  simp only [after_bind]
  refine (h.visit (.refl i s) hchild .none).mono ?_
  rintro objectTy s1 ⟨hp1, -, hobject⟩
  split
  · rename_i hunknown
    have hty : objectTy = .unknown := by
      cases objectTy <;> simp [Ty.isUnknown] at hunknown ⊢
    exact h.answer hnot hp1 (fun _ => trivial) fun _ => ⟨objectTy, hobject, Or.inl ⟨hty, rfl, rfl⟩⟩
  · rename_i hknown
    have hne : objectTy ≠ .unknown := by
      rintro rfl
      simp [Ty.isUnknown] at hknown
    split
    · simp only [after_bind, after_reportAt, after_pure]
      exact h.answer_reported hnot (hp1.report _) (by simp)
    · rename_i found hfound
      exact h.answer hnot hp1 (fun _ => trivial)
        fun _ => ⟨objectTy, hobject, Or.inr ⟨found, hne, rfl, rfl, hfound⟩⟩
    · simp only [after_bind, after_reportAt, after_pure]
      exact h.answer_reported hnot (hp1.report _) (by simp)

end Resolving

end ScriptTyping
