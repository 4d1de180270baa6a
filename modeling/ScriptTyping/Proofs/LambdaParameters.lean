import ScriptTyping.Proofs.BoundMembers
import ScriptTyping.Proofs.Checking

/-!
# Open types of lambda parameters

A parameter without an ascription gets the type that is expected at its place. What a script writes
is closed, and so is the result that is expected of a body. A call, however, hands its arguments the
parameter types of the callee with whatever the arguments before have bound, and an assignment hands
its value the type of a variable. A type parameter that is left in there becomes the type of a lambda
parameter, and nothing is reported.
-/

namespace ScriptTyping

open Check

variable {ctx : Context} {root c n : NodeIndex} {wanted expected : Option Ty}
  {table table' : SymbolTable} {f : Findings} {ty ty' : Ty} {kind : NodeKind}

/-! ## Closed types -/

namespace Ty

/-- No part of the type is a type parameter. -/
def Closed (t : Ty) : Prop := t.freeParams = []

instance (t : Ty) : Decidable t.Closed := inferInstanceAs (Decidable (_ = _))

theorem closed_iff (t : Ty) : t.Closed ↔ ∀ name, name ∉ t.paramNames := by
  simp [Closed, freeParams, List.eq_nil_iff_forall_not_mem]

@[simp] theorem closed_func (ps : List (String × Ty)) (r : Ty) :
    (func ps r).Closed ↔ (∀ p ∈ ps, p.2.Closed) ∧ r.Closed := by
  simp only [closed_iff, paramNames, List.mem_append, mem_paramNamesParams, not_or, not_exists,
    not_and, forall_and]
  exact and_congr_left' ⟨fun h p hp name => h name p hp, fun h name p hp => h p hp name⟩

@[simp] theorem closed_bound (id : DefId) (name : String) (args : List Ty) :
    (nominal id name (some args)).Closed ↔ ∀ t ∈ args, t.Closed := by
  simp only [closed_iff, paramNames, mem_paramNamesList, not_exists, not_and]
  exact ⟨fun h t ht name => h name t ht, fun h name t ht => h t ht name⟩

theorem Closed.listElement {t element : Ty} (h : t.Closed) (ht : t.listElement? = some element) :
    element.Closed := by
  unfold listElement? at ht
  split at ht
  · exact (closed_bound _ _ _).mp h element (List.mem_of_head? ht)
  · cases ht

end Ty

/-! ## One type is expected -/

theorem resolutionOrder_nodup (ctx : Context) {arguments : List NodeIndex} (h : arguments.Nodup)
    (params : List (String × Ty)) :
    ((resolutionOrder ctx (argumentsOf arguments params)).map (·.node)).Nodup := by
  rw [((resolutionOrder_perm ctx _).map (·.node)).nodup_iff, map_node_argumentsOf]
  exact h.sublist (map_fst_zip_sublist arguments params)

namespace Findings

theorem Infers.eq {free : List String} {before : List Argument} {i : Inference}
    (h : f.Infers ctx free before i) : i = before.foldl (fun i a =>
      i.infer ctx.env.definitions a.parameter ((f.type? a.node).getD .unknown)) ⟨free, .empty⟩ := by
  induction h with
  | start => rfl
  | argument _ ha ih =>
    rw [List.foldl_append, ← ih, List.foldl_cons, List.foldl_nil, ha, Option.getD_some]

theorem Asks.child (h : f.Asks ctx expected c ty kind) : c ∈ kind.children := by
  cases kind with
  | collection elements => exact h.1
  | conditional condition thenBranch elseBranch =>
    rcases h with ⟨rfl, -⟩ | ⟨hc, -⟩
    · exact List.mem_cons_self
    · exact List.mem_cons_of_mem _ hc
  | conjunction left right => exact h.1
  | block statements => exact List.mem_of_getLast? h.1
  | invocation callee arguments trailing =>
    obtain ⟨params, result, before, a, after, i, -, horder, rfl, -⟩ := h
    have ha : a ∈ resolutionOrder ctx (argumentsOf (arguments ++ trailing.toList) params) := by
      simp [horder]
    exact List.mem_cons_of_mem _ (mem_resolutionOrder ha).1
  | lambda params body => simp [NodeKind.children, h.1]
  | declaration name isConst ascription initializer =>
    cases ascription with
    | none => exact h.elim
    | some a => simp [NodeKind.children, h.1]
  | assignment target value => simp [NodeKind.children, h.1]
  | _ => exact h.elim

theorem Asks.of_none (h : f.Asks ctx none c ty kind) : f.Asks ctx expected c ty kind := by
  cases kind with
  | collection elements => cases h.2
  | conditional condition thenBranch elseBranch =>
    rcases h with h | ⟨-, hty⟩
    · exact Or.inl h
    · cases hty
  | block statements => cases h.2
  | lambda params body => cases h.2
  | declaration name isConst ascription initializer => cases ascription <;> exact h
  | _ => exact h

theorem Asks.unique (hnodup : kind.children.Nodup) (h : f.Asks ctx expected c ty kind)
    (h' : f.Asks ctx expected c ty' kind) : ty = ty' := by
  cases kind with
  | collection elements => exact Option.some.inj (h.2.symm.trans h'.2)
  | conditional condition thenBranch elseBranch =>
    obtain ⟨hnot, -⟩ := List.nodup_cons.mp hnodup
    rcases h with ⟨hc, hty⟩ | ⟨hc, hty⟩ <;> rcases h' with ⟨hc', hty'⟩ | ⟨hc', hty'⟩
    · exact hty.trans hty'.symm
    · exact absurd (hc ▸ hc') hnot
    · exact absurd (hc' ▸ hc) hnot
    · exact Option.some.inj (hty.symm.trans hty')
  | conjunction left right => exact h.2.trans h'.2.symm
  | block statements => exact Option.some.inj (h.2.symm.trans h'.2)
  | invocation callee arguments trailing =>
    obtain ⟨params, result, before, a, after, i, hcallee, horder, hnode, hi, rfl⟩ := h
    obtain ⟨params', result', before', a', after', i', hcallee', horder', hnode', hi', rfl⟩ := h'
    rw [hcallee] at hcallee'
    cases hcallee'
    have hnodes := resolutionOrder_nodup ctx (List.nodup_cons.mp hnodup).2 params
    have heq : a = a' := by
      refine List.inj_on_of_nodup_map hnodes ?_ ?_ (hnode.trans hnode'.symm)
      · simp [horder]
      · simp [horder']
    subst heq
    have hsplit := List.nodup_append.mp (horder ▸ List.Nodup.of_map _ hnodes)
    obtain ⟨rfl, -⟩ := (List.append_cons_inj_of_notMem
      (fun hmem => hsplit.2.2 _ hmem _ List.mem_cons_self rfl)
      (List.nodup_cons.mp hsplit.2.1).1).mp (horder.symm.trans horder')
    rw [hi.eq, hi'.eq]
  | lambda params body => exact Option.some.inj (h.2.symm.trans h'.2)
  | declaration name isConst ascription initializer =>
    cases ascription with
    | none => exact h.elim
    | some a => exact Option.some.inj (h.2.symm.trans h'.2)
  | assignment target value => exact Option.some.inj (h.2.symm.trans h'.2)
  | _ => exact h.elim

theorem Expects.unique (hp : ctx.tree.Proper root) (h : f.Expects ctx root wanted n ty)
    (h' : f.Expects ctx root wanted n ty') : ty = ty' := by
  induction h generalizing ty' with
  | root h =>
    cases h' with
    | root h' => exact Option.some.inj (h.symm.trans h')
    | asked hi hk h' => exact absurd h'.child (hp.root_notMem hi hk)
    | passed hi hk _ h' => exact absurd h'.child (hp.root_notMem hi hk)
  | asked hi hk h =>
    cases h' with
    | root => exact absurd h.child (hp.root_notMem hi hk)
    | asked hi' hk' h' =>
      obtain ⟨-, rfl⟩ := hp.parent_unique hi hi' hk hk' h.child h'.child
      exact h.unique (hp.children_nodup hi hk) h'
    | passed hi' hk' _ h' =>
      obtain ⟨-, rfl⟩ := hp.parent_unique hi hi' hk hk' h.child h'.child
      exact h.of_none.unique (hp.children_nodup hi hk) h'
  | passed hi hk _ h ih =>
    cases h' with
    | root => exact absurd h.child (hp.root_notMem hi hk)
    | asked hi' hk' h' =>
      obtain ⟨-, rfl⟩ := hp.parent_unique hi hi' hk hk' h.child h'.child
      exact h.unique (hp.children_nodup hi hk) h'.of_none
    | passed hi' hk' ht' h' =>
      obtain ⟨rfl, rfl⟩ := hp.parent_unique hi hi' hk hk' h.child h'.child
      obtain rfl := ih ht'
      exact h.unique (hp.children_nodup hi hk) h'

end Findings

/-! ## Types that a script writes -/

theorem Concluded.written_closed {s : Session} (h : Concluded ctx root wanted table ty s)
    (hp : ctx.tree.Proper root) (htypes : ctx.tree.TypesInPlace root)
    (htable : ∀ e ∈ ctx.env.types.entries, e.2.Closed) (hclean : s.diagnostics = [])
    (hn : ctx.tree.Reaches root n) (htype : ctx.tree.isTypeRef n = true)
    (hty : s.findings.type? n = some ty') : ty'.Closed := by
  induction hm : ctx.tree.extent n using Nat.strong_induction_on generalizing n ty' with
  | _ m ih =>
    obtain ⟨r, kind, hr, hk, hrule⟩ := h.rule hclean hn
    obtain ⟨r', hr', rfl⟩ := Findings.type?_eq_some.mp hty
    cases hr.symm.trans hr'
    cases kind with
    | typeRef name args =>
      obtain ⟨types, named, hargs, hnamed, -, -, hty⟩ := hrule
      split at hty
      · exact hty ▸ htable _ (OrderedMap.mem_of_find hnamed)
      · obtain ⟨id, name', d, -, -, -, -, hbound⟩ := Definitions.bind_eq_ok hty
        rw [hbound, Ty.closed_bound]
        intro t ht
        obtain ⟨a, ha, hat⟩ := hargs.of_mem ht
        have hchild : ctx.tree.Child n a := (Tree.child_of_kind hk).mpr ha
        exact ih _ (hm ▸ hp.extent_lt hn hchild) (hn.tail hchild) (htypes.child hn htype hchild) hat
          rfl
    | _ => simp [Tree.isTypeRef, hk, NodeKind.isTypeRef] at htype

/-! ## Types that a script hands on -/

namespace Findings

/-- The types that calls hand to their arguments and assignments to their values. Collections,
branches and the ends of blocks hand them on. -/
inductive Handed (ctx : Context) (root : NodeIndex) (f : Findings) : NodeIndex → Ty → Prop
  | argument {i callee : NodeIndex} {arguments : List NodeIndex} {trailing : Option NodeIndex}
      {params : List (String × Ty)} {result : Ty} {before after : List Argument} {a : Argument}
      {inferred : Inference} (hi : ctx.tree.Reaches root i)
      (hk : ctx.tree.kind? i = some (.invocation callee arguments trailing))
      (hcallee : f.type? callee = some (.func params result))
      (horder : resolutionOrder ctx (argumentsOf (arguments ++ trailing.toList) params) =
        before ++ a :: after)
      (hinferred : f.Infers ctx (Ty.func params result).freeParams before inferred) :
      Handed ctx root f a.node (a.parameter.instantiate inferred.bindings)
  | assigned {i target value : NodeIndex} {ty : Ty} (hi : ctx.tree.Reaches root i)
      (hk : ctx.tree.kind? i = some (.assignment target value)) (hty : f.type? target = some ty) :
      Handed ctx root f value ty
  | element {i c : NodeIndex} {elements : List NodeIndex} {list ty : Ty}
      (hi : ctx.tree.Reaches root i) (hk : ctx.tree.kind? i = some (.collection elements))
      (hc : c ∈ elements) (h : Handed ctx root f i list) (hty : list.listElement? = some ty) :
      Handed ctx root f c ty
  | branch {i c condition thenBranch : NodeIndex} {elseBranch : Option NodeIndex} {ty : Ty}
      (hi : ctx.tree.Reaches root i)
      (hk : ctx.tree.kind? i = some (.conditional condition thenBranch elseBranch))
      (hc : c ∈ thenBranch :: elseBranch.toList) (h : Handed ctx root f i ty) :
      Handed ctx root f c ty
  | last {i c : NodeIndex} {statements : List NodeIndex} {ty : Ty} (hi : ctx.tree.Reaches root i)
      (hk : ctx.tree.kind? i = some (.block statements)) (hc : statements.getLast? = some c)
      (h : Handed ctx root f i ty) : Handed ctx root f c ty

theorem Handed.expects (h : f.Handed ctx root n ty) : f.Expects ctx root wanted n ty := by
  induction h with
  | argument hi hk hcallee horder hinferred =>
    exact .asked hi hk ⟨_, _, _, _, _, _, hcallee, horder, rfl, hinferred, rfl⟩
  | assigned hi hk hty => exact .asked hi hk ⟨rfl, hty⟩
  | element hi hk hc _ hty ih => exact .passed hi hk ih ⟨hc, hty⟩
  | branch hi hk hc _ ih => exact .passed hi hk ih (Or.inr ⟨hc, rfl⟩)
  | last hi hk hc _ ih => exact .passed hi hk ih ⟨hc, rfl⟩

/-- A node asks an open type of a child only if it has been handed one, or hands one itself. -/
theorem Asks.handed {i : NodeIndex} (htypes : ctx.tree.TypesInPlace root)
    (hwritten : ∀ {n ty}, ctx.tree.Reaches root n → ctx.tree.isTypeRef n = true →
      f.type? n = some ty → ty.Closed)
    (hi : ctx.tree.Reaches root i) (hk : ctx.tree.kind? i = some kind)
    (he : ∀ t ∈ expected, ¬ t.Closed → f.Handed ctx root i t)
    (h : f.Asks ctx expected c ty kind) (hopen : ¬ ty.Closed) : f.Handed ctx root c ty := by
  have hboolean : Ty.boolean.Closed := by decide
  cases kind with
  | collection elements =>
    obtain ⟨hc, helement⟩ := h
    obtain ⟨list, hlist, helement⟩ := Option.bind_eq_some_iff.mp helement
    exact .element hi hk hc (he list hlist fun hclosed => hopen (hclosed.listElement helement))
      helement
  | conditional condition thenBranch elseBranch =>
    rcases h with ⟨-, rfl⟩ | ⟨hc, hty⟩
    · exact absurd hboolean hopen
    · exact .branch hi hk hc (he ty hty hopen)
  | conjunction left right => exact absurd (h.2 ▸ hboolean) hopen
  | block statements => exact .last hi hk h.1 (he ty h.2 hopen)
  | invocation callee arguments trailing =>
    obtain ⟨params, result, before, a, after, inferred, hcallee, horder, rfl, hinferred, rfl⟩ := h
    exact .argument hi hk hcallee horder hinferred
  | lambda params body =>
    -- Only a closed result is expected of a body.
    obtain ⟨-, hresult⟩ := h
    unfold expectedResult at hresult
    split at hresult
    · split at hresult
      · cases hresult
      · rename_i hclosed
        cases hresult
        simp only [Bool.or_eq_true, Bool.not_eq_true', List.isEmpty_eq_false_iff, not_or,
          not_not] at hclosed
        exact absurd hclosed.2 hopen
    · cases hresult
  | declaration name isConst ascription initializer =>
    cases ascription with
    | none => exact h.elim
    | some a =>
      have hchild : ctx.tree.Child i a :=
        (Tree.child_of_kind hk).mpr (by simp [NodeKind.children])
      exact absurd (hwritten (hi.tail hchild)
        ((htypes i _ hi hk).1 a (by simp [NodeKind.typePlaces])) h.2) hopen
  | assignment target value =>
    obtain ⟨rfl, hty⟩ := h
    exact .assigned hi hk hty
  | _ => exact h.elim

theorem Expects.handed (htypes : ctx.tree.TypesInPlace root)
    (hwritten : ∀ {n ty}, ctx.tree.Reaches root n → ctx.tree.isTypeRef n = true →
      f.type? n = some ty → ty.Closed)
    (hwanted : ∀ t ∈ wanted, t.Closed) (h : f.Expects ctx root wanted n ty)
    (hopen : ¬ ty.Closed) : f.Handed ctx root n ty := by
  induction h with
  | root h => exact absurd (hwanted _ h) hopen
  | asked hi hk h => exact h.handed htypes hwritten hi hk (by simp) hopen
  | passed hi hk _ h ih => exact h.handed htypes hwritten hi hk (by simpa using ih) hopen

end Findings

/-! ## A whole check -/

/-- From closed types, a check that reports nothing gives a lambda's parameter an open type exactly
if it has no ascription and the lambda is handed a function type that is open at its place. -/
theorem parameter_open_iff_handed {σ : Nat} {result : CheckResult} {id : SymbolId} {name : String}
    {l : NodeIndex} {k : Nat} (hp : ctx.tree.Proper root) (htypes : ctx.tree.TypesInPlace root)
    (hhost : table.HostScope σ) (htable : ∀ e ∈ ctx.env.types.entries, e.2.Closed)
    (hwanted : ∀ t ∈ wanted, t.Closed)
    (hcheck : check ctx table root σ wanted = (result, table')) (hclean : result.diagnostics = [])
    (hsym : table'.symbol? id = some ⟨name, .parameter l k⟩)
    (hty : result.symbolTypes.get? id = some ty) :
    ¬ ty.Closed ↔ ∃ params body ps r p, ctx.tree.kind? l = some (.lambda params body) ∧
      params[k]?.bind (·.ascription) = none ∧
      Findings.Handed ctx root ⟨result.nodes, table', result.symbolTypes⟩ l (.func ps r) ∧
      ps[k]? = some p ∧ ¬ p.2.Closed := by
  obtain ⟨rootTy, s, heq, hconcluded⟩ := check_spec wanted hp htypes hhost
  rw [heq] at hcheck
  cases hcheck
  obtain ⟨s₀, hL, hlater⟩ := hconcluded.layout
  have hsym₀ : s₀.table.symbol? id = some ⟨name, .parameter l k⟩ := hlater.table ▸ hsym
  obtain ⟨hl, -⟩ := hL.accounted.parameter (hL.base_le hsym₀ (by simp)) hsym₀
  have hwritten : ∀ {n t}, ctx.tree.Reaches root n → ctx.tree.isTypeRef n = true →
      s.findings.type? n = some t → t.Closed :=
    hconcluded.written_closed hp htypes htable hclean
  obtain ⟨params, body, hk, hrule⟩ : s.findings.ParameterRule ctx root wanted l k ty :=
    (hlater.trace hclean).symbolRule (hL.untyped id) hty hsym
  constructor
  · intro hopen
    split at hrule
    · rename_i a ha
      obtain ⟨param, hparam, ha⟩ := Option.bind_eq_some_iff.mp ha
      have hmem : a ∈ params.filterMap (·.ascription) :=
        List.mem_filterMap.mpr ⟨param, List.mem_of_getElem? hparam, ha⟩
      have hchild : ctx.tree.Child l a :=
        (Tree.child_of_kind hk).mpr (List.mem_append_left _ hmem)
      exact absurd (hwritten (hl.tail hchild) ((htypes l _ hl hk).1 a hmem) hrule) hopen
    · rename_i hnone
      obtain ⟨ps, r, place, hexpects, hplace⟩ := hrule
      refine ⟨params, body, ps, r, _, hk, hnone, hexpects.handed htypes hwritten hwanted ?_, hplace,
        hopen⟩
      intro hclosed
      exact hopen (((Ty.closed_func _ _).mp hclosed).1 _ (List.mem_of_getElem? hplace))
  · rintro ⟨params', body', ps, r, p, hk', hnone, hhanded, hplace, hopen⟩
    cases hk.symm.trans hk'
    rw [hnone] at hrule
    obtain ⟨ps', r', place, hexpects, hplace'⟩ := hrule
    cases hexpects.unique hp hhanded.expects
    cases hplace.symm.trans hplace'
    exact hopen

/-! ## A parameter that nothing fixes -/

/-- A box calls a function with each of its items, and nothing says what they are. -/
def boxDefinitions : Definitions :=
  Definitions.builtin.register "Box" none
    [.method "each" [⟨"U", .invariant⟩]
      (.func [("visit", .func [("item", .param ⟨"U", .invariant⟩)] Ty.boolean)] Ty.boolean)]

/-- `box.each({ item -> true })` -/
def boxContext : Context where
  env := ⟨boxDefinitions, Environment.initial.types⟩
  options := {}
  tree := ⟨#[⟨.identifier "box", Span.empty⟩, ⟨.memberAccess 0 "each", Span.empty⟩,
    ⟨.literal (.value (.boolean true)), Span.empty⟩,
    ⟨.lambda [⟨"item", none, Span.empty⟩] 2, Span.empty⟩, ⟨.invocation 1 [3] none, Span.empty⟩]⟩

def boxTable : SymbolTable := (SymbolTable.hostScope {} [("box", .nominal 5 "Box" none)]).2

theorem boxContext_proper : boxContext.tree.Proper 4 := by
  apply Tree.Proper.of_slots <;> decide

theorem boxContext_typesInPlace : boxContext.tree.TypesInPlace 4 := by
  apply Tree.TypesInPlace.of_nodes
  decide

theorem boxTable_hostScope : boxTable.HostScope 0 :=
  SymbolTable.hostScope_spec [("box", .nominal 5 "Box" none)]

theorem box_item_accepted : ∃ result table',
    check boxContext boxTable 4 0 none = (result, table') ∧ result.diagnostics = [] ∧
      table'.symbol? 1 = some ⟨"item", .parameter 3 0⟩ ∧
      result.symbolTypes.get? 1 = some (.param ⟨"U", .invariant⟩) := by
  have hclean : (check boxContext boxTable 4 0 none).1.diagnostics = [] := by decide +kernel
  have hsym : (check boxContext boxTable 4 0 none).2.symbol? 1 =
      some ⟨"item", .parameter 3 0⟩ := by decide +kernel
  have hty : (check boxContext boxTable 4 0 none).1.symbolTypes.get? 1 =
      some (.param ⟨"U", .invariant⟩) := by decide +kernel
  exact ⟨_, _, Prod.mk.eta.symm, hclean, hsym, hty⟩

theorem boxTable_closed {id : SymbolId} {name : String} {c : Bool}
    (hsym : boxTable.symbol? id = some ⟨name, .host ty c⟩) : ty.Closed := by
  cases id with
  | zero =>
    cases hsym
    decide
  | succ id =>
    simp [boxTable, SymbolTable.hostScope, SymbolTable.addSymbols, SymbolTable.addSymbol,
      SymbolTable.addScope, SymbolTable.symbol?, Symbol.host] at hsym

theorem box_item_handed : ∃ result table',
    check boxContext boxTable 4 0 none = (result, table') ∧ result.diagnostics = [] ∧
      ∃ ps r p, Findings.Handed boxContext 4 ⟨result.nodes, table', result.symbolTypes⟩ 3
        (.func ps r) ∧ ps[0]? = some p ∧ ¬ p.2.Closed := by
  obtain ⟨result, table', hcheck, hclean, hsym, hty⟩ := box_item_accepted
  obtain ⟨params, body, ps, r, p, -, -, hhanded, hplace, hopen⟩ :=
    (parameter_open_iff_handed boxContext_proper boxContext_typesInPlace boxTable_hostScope
      (by decide) (by simp) hcheck hclean hsym hty).mp (by decide)
  exact ⟨result, table', hcheck, hclean, ps, r, p, hhanded, hplace, hopen⟩

/-- From closed types, a check that reports nothing may still give a lambda's parameter an open
type. -/
theorem parameter_can_be_open : ¬ ∀ (ctx : Context) (table table' : SymbolTable) (root : NodeIndex)
    (σ : ScopeId) (wanted : Option Ty) (result : CheckResult) (id : SymbolId) (name : String)
    (l : NodeIndex) (k : Nat) (ty : Ty), ctx.tree.Proper root → ctx.tree.TypesInPlace root →
    table.HostScope σ → ctx.env.definitions.Scoped →
    (∀ e ∈ ctx.env.types.entries, e.2.Closed) → (∀ t ∈ wanted, t.Closed) →
    (∀ id name ty c, table.symbol? id = some ⟨name, .host ty c⟩ → ty.Closed) →
    check ctx table root σ wanted = (result, table') → result.diagnostics = [] →
    table'.symbol? id = some ⟨name, .parameter l k⟩ → result.symbolTypes.get? id = some ty →
    ty.Closed := by
  intro hall
  obtain ⟨result, table', hcheck, hclean, hsym, hty⟩ := box_item_accepted
  have hclosed := hall _ _ _ _ _ _ _ _ _ _ _ _ boxContext_proper boxContext_typesInPlace
    boxTable_hostScope (by decide) (by decide) (by simp) (fun _ _ _ _ => boxTable_closed) hcheck
    hclean hsym hty
  revert hclosed
  decide

end ScriptTyping
