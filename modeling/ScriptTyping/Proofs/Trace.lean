import Mathlib.Logic.Relation
import ScriptTyping.Proofs.Ancestry
import ScriptTyping.Proofs.TypingRule

/-!
# Traces

What a check without diagnostics adds to its findings, one step at a time: a node is recorded
when its rule is satisfied, and a symbol gets its type when the rule of its origin is. A parameter
may get its type from the one expected of its lambda, which a parent asks of it. Whatever holds of
all findings is proved along a trace.
-/

namespace ScriptTyping

open Check

/-- What is inferred from the arguments `before`, which are recorded. -/
inductive Findings.Infers (ctx : Context) (f : Findings) (free : List String) :
    List Argument → Inference → Prop
  | start : Infers ctx f free [] ⟨free, .empty⟩
  | argument {before : List Argument} {i : Inference} {a : Argument} {ty : Ty}
      (hi : Infers ctx f free before i) (ha : f.type? a.node = some ty) :
      Infers ctx f free (before ++ [a]) (i.infer ctx.env.definitions a.parameter ty)

/-- The type that a node asks of its child `c`, when `expected` is expected of the node. -/
def Findings.Asks (ctx : Context) (f : Findings) (expected : Option Ty) (c : NodeIndex) (ty : Ty) :
    NodeKind → Prop
  | .collection elements => c ∈ elements ∧ expected.bind Ty.listElement? = some ty
  | .conditional condition thenBranch elseBranch => c = condition ∧ ty = Ty.boolean ∨
      c ∈ thenBranch :: elseBranch.toList ∧ expected = some ty
  | .conjunction left right => c ∈ [left, right] ∧ ty = Ty.boolean
  | .block statements => statements.getLast? = some c ∧ expected = some ty
  | .invocation callee arguments trailing => ∃ params result before a after i,
      f.type? callee = some (.func params result) ∧
      resolutionOrder ctx (argumentsOf (arguments ++ trailing.toList) params) =
        before ++ a :: after ∧ a.node = c ∧
      f.Infers ctx (Ty.func params result).freeParams before i ∧
      ty = a.parameter.instantiate i.bindings
  | .lambda _ body => c = body ∧ expectedResult expected = some ty
  | .declaration _ _ (some ascription) initializer =>
      c = initializer ∧ f.type? ascription = some ty
  | .assignment target value => c = value ∧ f.type? target = some ty
  | _ => False

/-- The type that is expected of a node; `wanted` is what is expected of the root. -/
inductive Findings.Expects (ctx : Context) (root : NodeIndex) (wanted : Option Ty) (f : Findings) :
    NodeIndex → Ty → Prop
  | root {ty : Ty} (h : wanted = some ty) : Expects ctx root wanted f root ty
  | asked {i c : NodeIndex} {kind : NodeKind} {ty : Ty} (hi : ctx.tree.Reaches root i)
      (hk : ctx.tree.kind? i = some kind) (h : f.Asks ctx none c ty kind) :
      Expects ctx root wanted f c ty
  | passed {i c : NodeIndex} {kind : NodeKind} {t ty : Ty} (hi : ctx.tree.Reaches root i)
      (hk : ctx.tree.kind? i = some kind) (ht : Expects ctx root wanted f i t)
      (h : f.Asks ctx (some t) c ty kind) : Expects ctx root wanted f c ty

namespace Findings

variable {ctx : Context} {wanted expected : Option Ty} {f f' f'' : Findings} {root c n : NodeIndex}
  {id : SymbolId} {ty : Ty} {r : Resolution} {kind : NodeKind}

theorem Infers.mono {free : List String} {before : List Argument} {i : Inference}
    (h : f.Infers ctx free before i) (hf : ∀ {n ty}, f.type? n = some ty → f'.type? n = some ty) :
    f'.Infers ctx free before i := by
  induction h with
  | start => exact .start
  | argument _ ha ih => exact .argument ih (hf ha)

theorem Asks.mono (h : f.Asks ctx expected c ty kind)
    (hf : ∀ {n ty}, f.type? n = some ty → f'.type? n = some ty) :
    f'.Asks ctx expected c ty kind := by
  cases kind with
  | invocation callee arguments trailing =>
    obtain ⟨params, result, before, a, after, i, hcallee, horder, hnode, hi, hty⟩ := h
    exact ⟨params, result, before, a, after, i, hf hcallee, horder, hnode, hi.mono hf, hty⟩
  | declaration name isConst ascription initializer =>
    cases ascription with
    | none => exact h
    | some a => exact ⟨h.1, hf h.2⟩
  | assignment target value => exact ⟨h.1, hf h.2⟩
  | _ => exact h

theorem Expects.mono (h : f.Expects ctx root wanted n ty)
    (hf : ∀ {n ty}, f.type? n = some ty → f'.type? n = some ty) :
    f'.Expects ctx root wanted n ty := by
  induction h with
  | root h => exact .root h
  | asked hi hk h => exact .asked hi hk (h.mono hf)
  | passed hi hk _ h ih => exact .passed hi hk ih (h.mono hf)

theorem Expects.child {i : NodeIndex} (hi : ctx.tree.Reaches root i)
    (hk : ctx.tree.kind? i = some kind)
    (he : ∀ t, expected = some t → f.Expects ctx root wanted i t)
    (h : f.Asks ctx expected c ty kind) : f.Expects ctx root wanted c ty := by
  cases expected with
  | none => exact .asked hi hk h
  | some t => exact .passed hi hk (he t rfl) h

/-- The type of a lambda's parameter: that of its ascription, or else the one expected at its
place. -/
def ParameterRule (ctx : Context) (root : NodeIndex) (wanted : Option Ty) (f : Findings)
    (l : NodeIndex) (k : Nat) (ty : Ty) : Prop :=
  ∃ params body, ctx.tree.kind? l = some (.lambda params body) ∧
    match params[k]?.bind (·.ascription) with
    | some a => f.type? a = some ty
    | none => ∃ ps r name, f.Expects ctx root wanted l (.func ps r) ∧ ps[k]? = some (name, ty)

theorem ParameterRule.mono {k : Nat} (h : f.ParameterRule ctx root wanted n k ty)
    (hf : ∀ {n ty}, f.type? n = some ty → f'.type? n = some ty) :
    f'.ParameterRule ctx root wanted n k ty := by
  obtain ⟨params, body, hk, hty⟩ := h
  refine ⟨params, body, hk, ?_⟩
  split at hty
  · exact hf hty
  · obtain ⟨ps, r, name, ht, hp⟩ := hty
    exact ⟨ps, r, name, ht.mono hf, hp⟩

/-- The type that a symbol may get, by its origin. -/
def SymbolRule (ctx : Context) (root : NodeIndex) (wanted : Option Ty) (f : Findings) (ty : Ty) :
    Origin → Prop
  | .source d c => ∃ name ascription initializer,
      ctx.tree.kind? d = some (.declaration name c ascription initializer) ∧
      f.Declares ctx c ascription initializer ty
  | .parameter l k => f.ParameterRule ctx root wanted l k ty
  | .narrowed o g => ∃ operand target declared asserted,
      ctx.tree.kind? g = some (.typeTest operand target) ∧ f.type? target = some asserted ∧
      f.SymbolHasType ctx o declared ∧ ty = ctx.env.definitions.narrow asserted declared
  | .host .. => False

/-- The parameters of a lambda that have a type are bound by it. -/
def BindsTyped (f : Findings) (n : NodeIndex) (binding : Binding) : NodeKind → Prop
  | .lambda .. => ∀ {id name k}, f.table.symbol? id = some ⟨name, .parameter n k⟩ →
      f.symbolTypes.get? id ≠ none → ∃ bound, binding = .lambda bound ∧ id ∈ bound
  | _ => True

/-- One step of a check without diagnostics. A lambda that is recorded types no parameters. -/
inductive Step (ctx : Context) (root : NodeIndex) (wanted : Option Ty) :
    Findings → Findings → Prop
  | record {f : Findings} {n : NodeIndex} {kind : NodeKind} {r : Resolution}
      (hkind : ctx.tree.kind? n = some kind) (hwired : f.nodes.get? n = some (.wired r.scopes))
      (hrule : f.TypingRule ctx n r kind) (hbinds : f.BindsTyped n r.binding kind) :
      Step ctx root wanted f { f with nodes := f.nodes.set n (.typed r) }
  | symbol {f : Findings} {id : SymbolId} {name : String} {origin : Origin} {ty : Ty}
      (hsym : f.table.symbol? id = some ⟨name, origin⟩)
      (hfree : ∀ t, f.symbolTypes.get? id = some t → t = ty)
      (hrule : f.SymbolRule ctx root wanted ty origin)
      (hopen : ∀ l k, origin = .parameter l k → f.nodes.resolution? l = none) :
      Step ctx root wanted f { f with symbolTypes := f.symbolTypes.insert id ty }

def Trace (ctx : Context) (root : NodeIndex) (wanted : Option Ty) : Findings → Findings → Prop :=
  Relation.ReflTransGen (Step ctx root wanted)

theorem Step.recorded_cases (h : Step ctx root wanted f f') (hn : f'.nodes.resolution? n = some r) :
    (f.nodes.resolution? n = some r ∧ f'.nodes.get? n = f.nodes.get? n) ∨
      f'.nodes.get? n = some (.typed r) ∧
        ∃ kind, ctx.tree.kind? n = some kind ∧ f.TypingRule ctx n r kind := by
  cases h with
  | @record m kind r' hkind hwired hrule _ =>
    simp only [NodeStates.resolution?_set_typed hwired] at hn
    split at hn
    · rename_i heq
      cases hn
      subst heq
      exact Or.inr ⟨NodeStates.get?_set_self hwired _, kind, hkind, hrule⟩
    · rename_i hne
      exact Or.inl ⟨hn, NodeStates.get?_set_of_ne _ hne _⟩
  | symbol => exact Or.inl ⟨hn, rfl⟩

theorem Step.symbol_cases (h : Step ctx root wanted f f') (hid : f'.symbolTypes.get? id = some ty) :
    f.symbolTypes.get? id = some ty ∨
      ∃ name origin, f.table.symbol? id = some ⟨name, origin⟩ ∧
        f.SymbolRule ctx root wanted ty origin := by
  cases h with
  | record => exact Or.inl hid
  | @symbol id' name origin ty' hsym hfree hrule _ =>
    simp only [OrderedMap.get?_insert] at hid
    split at hid
    · rename_i heq
      cases hid
      exact Or.inr ⟨name, origin, heq ▸ hsym, hrule⟩
    · exact Or.inl hid

theorem Step.extends_ (h : Step ctx root wanted f f') : f.Extends f' := by
  cases h with
  | @record n kind r hkind hwired hrule _ =>
    refine ⟨rfl, ?_, fun h => h⟩
    intro m r' hm
    rw [NodeStates.resolution?_set_typed hwired, if_neg]
    · exact hm
    · rintro rfl
      simp [NodeStates.resolution?, hwired, NodeState.resolution?] at hm
  | @symbol id name origin ty hsym hfree hrule _ =>
    refine ⟨rfl, fun h => h, ?_⟩
    intro id' t ht
    simp only [OrderedMap.get?_insert]
    split
    · rename_i heq
      subst heq
      rw [hfree t ht]
    · exact ht

theorem Trace.extends_ (h : Trace ctx root wanted f f') : f.Extends f' := by
  induction h with
  | refl => exact .refl f
  | tail _ hstep ih => exact ih.trans hstep.extends_

/-- What a step has recorded satisfies its rule, and what was recorded before still does. -/
theorem Trace.rule (h : Trace ctx root wanted f f') (hn : f.nodes.resolution? n = none)
    (hn' : f'.nodes.resolution? n = some r) :
    ∃ kind, ctx.tree.kind? n = some kind ∧ f'.TypingRule ctx n r kind := by
  induction h with
  | refl => simp [hn] at hn'
  | tail _ hstep ih =>
    rcases hstep.recorded_cases hn' with ⟨hold, -⟩ | ⟨-, kind, hk, hrule⟩
    · obtain ⟨kind, hk, hrule⟩ := ih hold
      exact ⟨kind, hk, hrule.mono hstep.extends_⟩
    · exact ⟨kind, hk, hrule.mono hstep.extends_⟩

theorem Trace.typed (h : Trace ctx root wanted f f') (hn : f.nodes.resolution? n = none)
    (hn' : f'.nodes.resolution? n = some r) : f'.nodes.get? n = some (.typed r) := by
  induction h with
  | refl => simp [hn] at hn'
  | tail _ hstep ih =>
    rcases hstep.recorded_cases hn' with ⟨hold, hsame⟩ | ⟨htyped, -⟩
    · exact hsame.trans (ih hold)
    · exact htyped

theorem SymbolRule.mono {origin : Origin} (h : f.SymbolRule ctx root wanted ty origin)
    (hf : f.Extends f') : f'.SymbolRule ctx root wanted ty origin := by
  cases origin with
  | source d c =>
    obtain ⟨name, ascription, initializer, hk, hd⟩ := h
    exact ⟨name, ascription, initializer, hk, hd.mono hf⟩
  | parameter l k => exact ParameterRule.mono h hf.type
  | narrowed o g =>
    obtain ⟨operand, target, declared, asserted, hk, ht, ho, hty⟩ := h
    exact ⟨operand, target, declared, asserted, hk, hf.type ht, ho.mono hf, hty⟩
  | host ty c => exact h

theorem Trace.symbolRule {name : String} {origin : Origin} (h : Trace ctx root wanted f f')
    (hid : f.symbolTypes.get? id = none) (hid' : f'.symbolTypes.get? id = some ty)
    (hsym : f'.table.symbol? id = some ⟨name, origin⟩) :
    f'.SymbolRule ctx root wanted ty origin := by
  induction h with
  | refl => simp [hid] at hid'
  | tail _ hstep ih =>
    rw [hstep.extends_.table] at hsym
    rcases hstep.symbol_cases hid' with hold | ⟨name', origin', hsym', hrule⟩
    · exact (ih hold hsym).mono hstep.extends_
    · rw [hsym] at hsym'
      cases hsym'
      exact hrule.mono hstep.extends_

theorem Step.binds_cases (h : Step ctx root wanted f f') {params : List LambdaParam}
    {body : NodeIndex} {name : String} {k : Nat} (hk : ctx.tree.kind? n = some (.lambda params body))
    (hn : f'.nodes.resolution? n = some r)
    (hsym : f'.table.symbol? id = some ⟨name, .parameter n k⟩)
    (hid : f'.symbolTypes.get? id ≠ none) :
    (f.nodes.resolution? n = some r ∧ f.symbolTypes.get? id ≠ none) ∨
      ∃ bound, r.binding = .lambda bound ∧ id ∈ bound := by
  cases h with
  | @record m kind r' hkind hwired hrule hbinds =>
    simp only [NodeStates.resolution?_set_typed hwired] at hn
    split at hn
    · rename_i heq
      cases hn
      subst heq
      rw [hk] at hkind
      cases hkind
      exact Or.inr (hbinds hsym hid)
    · exact Or.inl ⟨hn, hid⟩
  | @symbol id' name' origin ty hsym' hfree hrule hopen =>
    refine Or.inl ⟨hn, ?_⟩
    by_cases heq : id' = id
    · subst heq
      cases hsym'.symm.trans hsym
      simp [hopen n k rfl] at hn
    · rwa [OrderedMap.get?_insert_of_ne _ heq] at hid

theorem Trace.binds (h : Trace ctx root wanted f f') {params : List LambdaParam} {body : NodeIndex}
    {name : String} {k : Nat} (hk : ctx.tree.kind? n = some (.lambda params body))
    (hn : f.nodes.resolution? n = none) (hn' : f'.nodes.resolution? n = some r)
    (hsym : f'.table.symbol? id = some ⟨name, .parameter n k⟩)
    (hid : f'.symbolTypes.get? id ≠ none) : ∃ bound, r.binding = .lambda bound ∧ id ∈ bound := by
  induction h with
  | refl => simp [hn] at hn'
  | tail _ hstep ih =>
    rcases hstep.binds_cases hk hn' hsym hid with ⟨hold, hid⟩ | hbinds
    · rw [hstep.extends_.table] at hsym
      exact ih hold hsym hid
    · exact hbinds

end Findings

end ScriptTyping
