import ScriptTyping.Proofs.Checking

/-!
# Conjoined guards

The guards of a condition that test one name narrow it one after the other, in the order of the
text, however the conjunctions are nested.
-/

namespace ScriptTyping

open Session Check

variable {ctx : Context} {root c g i branch condition : NodeIndex} {base σ τ id o m : Nat}
  {s s₀ : Session} {ids : List SymbolId} {gs hs : List NodeIndex} {name : String}

namespace Tree

/-- The condition of the node holds in the branch: the then branch of a conditional, the right
operand of a conjunction. -/
def HoldsIn (t : Tree) (i condition branch : NodeIndex) : Prop :=
  (∃ elseBranch, t.kind? i = some (.conditional condition branch elseBranch)) ∨
    t.kind? i = some (.conjunction condition branch)

/-- The conjuncts that test the name. -/
def guardsOn (t : Tree) (name : String) (gs : List NodeIndex) : List NodeIndex :=
  gs.filter fun g => t.guardName? g = some name

@[simp] theorem guardsOn_append (t : Tree) (name : String) (gs hs : List NodeIndex) :
    t.guardsOn name (gs ++ hs) = t.guardsOn name gs ++ t.guardsOn name hs :=
  List.filter_append ..

theorem HoldsIn.child {t : Tree} (h : t.HoldsIn i condition branch) : t.Child i condition := by
  rcases h with ⟨elseBranch, hk⟩ | hk <;>
    exact (child_of_kind hk).mpr (by simp [NodeKind.children])

end Tree

namespace SymbolTable

variable {t : SymbolTable}

/-- The symbol is what guards on the name, the last one first, make of `o`: it is narrowed by the
last guard, and its original is what the guards before that one make of `o`. -/
def NarrowedBy (t : SymbolTable) (name : String) (o : SymbolId) : List NodeIndex → SymbolId → Prop
  | [], id => id = o
  | g :: earlier, id => ∃ original, t.symbol? id = some ⟨name, .narrowed original g⟩ ∧
      t.NarrowedBy name o earlier original

/-- What the name means after narrowed symbols, the latest last, have been added to a scope where
it means `o`. -/
def latest (t : SymbolTable) (name : String) (o : SymbolId) (ids : List SymbolId) : SymbolId :=
  (ids.reverse.find? (t.isNamed name)).getD o

theorem latest_append (t : SymbolTable) (name : String) (o : SymbolId) (ids more : List SymbolId) :
    t.latest name o (ids ++ more) = t.latest name (t.latest name o ids) more := by
  simp only [latest, List.reverse_append, List.find?_append]
  cases more.reverse.find? (t.isNamed name) <;> rfl

theorem NarrowedBy.append (h : t.NarrowedBy name o gs m) (h' : t.NarrowedBy name m hs id) :
    t.NarrowedBy name o (hs ++ gs) id := by
  induction hs generalizing id with
  | nil =>
    cases h'
    exact h
  | cons g earlier ih =>
    obtain ⟨original, hsym, horiginal⟩ := h'
    exact ⟨original, hsym, ih horiginal⟩

theorem NarrowedBy.isConst (h : t.NarrowedBy name o gs id) (ho : t.isConst o = true) :
    t.isConst id = true := by
  cases gs with
  | nil =>
    cases h
    exact ho
  | cons g earlier =>
    obtain ⟨original, hsym, -⟩ := h
    simp [SymbolTable.isConst, hsym, Symbol.isConst]

end SymbolTable

theorem Session.Narrows.resolve (h : s.Narrows σ τ ids) (hwf : s.table.WellFormed)
    (ho : s.table.resolve σ name = some o) :
    s.table.resolve τ name = some (s.table.latest name o ids) := by
  rcases h with ⟨rfl, rfl⟩ | ⟨-, hd⟩
  · exact ho
  · rw [SymbolTable.resolve_child hwf hd, ho, SymbolTable.latest]
    cases ids.reverse.find? (s.table.isNamed name) <;> rfl

/-! ## The guards of a condition -/

theorem Session.Narrowing.latest {tested : String} (h : s.Narrowing σ tested g ids)
    (ho : s.table.resolve σ name = some o) (hconst : s.table.isConst o = true) :
    s.table.NarrowedBy name o (if tested = name then [g] else []) (s.table.latest name o ids) := by
  split
  · rename_i heq
    subst heq
    simp only [Narrowing, ho, hconst, if_true] at h
    obtain ⟨id, rfl, hsym⟩ := h
    refine ⟨o, ?_, rfl⟩
    simp [SymbolTable.latest, SymbolTable.isNamed, hsym]
  · rename_i hne
    have hnone : ids.reverse.find? (s.table.isNamed name) = none := by
      rw [List.find?_eq_none]
      intro id hid
      obtain ⟨original, hsym, -⟩ := h.original (List.mem_reverse.mp hid)
      simp [SymbolTable.isNamed, hsym, hne]
    rw [SymbolTable.latest, hnone]
    rfl

theorem narrowedBy_conjunct (hL : Layout ctx root base s₀) (hg : ctx.tree.Reaches root g)
    (hplaced : s₀.Placed g σ) (htruths : Truths ctx.tree s₀ [g] ids)
    (ho : s₀.table.resolve σ name = some o) (hconst : s₀.table.isConst o = true) :
    s₀.table.NarrowedBy name o (ctx.tree.guardsOn name [g]) (s₀.table.latest name o ids) := by
  have hids : ids = truthOf ctx.tree s₀ g := by simpa using htruths.all
  cases hname : ctx.tree.guardName? g with
  | none =>
    simp only [hids, truthOf, Tree.guardsOn, List.filter, hname]
    rfl
  | some tested =>
    obtain ⟨known, hknown⟩ := htruths.known g (by simp) (by simp [hname])
    obtain ⟨operand, target, hk, -⟩ := Tree.kind_of_guardName hname
    obtain ⟨inner, hsc⟩ := hplaced
    obtain ⟨-, -, -, hrule⟩ := hL.rule hg hsc hk
    have hnarrowing : s₀.Narrowing σ tested g ids := by
      rw [hids, truthOf, hname, hknown]
      exact hrule tested known hname hknown
    have hlatest := hnarrowing.latest ho hconst
    simp only [Tree.guardsOn, List.filter, hname, Option.some.injEq]
    split at hlatest <;> simp_all

theorem narrowedBy_conjuncts (hL : Layout ctx root base s₀) (hgs : ctx.tree.Conjuncts c gs)
    (hc : ctx.tree.Reaches root c) (hplaced : s₀.Placed c σ) (htruths : Truths ctx.tree s₀ gs ids)
    (ho : s₀.table.resolve σ name = some o) (hconst : s₀.table.isConst o = true) :
    s₀.table.NarrowedBy name o (ctx.tree.guardsOn name gs).reverse
      (s₀.table.latest name o ids) := by
  induction hgs generalizing σ o ids with
  | single =>
    rw [Tree.guardsOn, ← List.filter_reverse]
    exact narrowedBy_conjunct hL hc hplaced htruths ho hconst
  | @both c l r gs hs hk hl hr ihl ihr =>
    -- The scope of the right operand is the narrowed one, so its guards narrow what those of the
    -- left operand have made of the symbol.
    obtain ⟨inner, hsc⟩ := hplaced
    obtain ⟨gs', left, τ, hgs', hleft, hnarrows, -, hplacedL, hplacedR⟩ := hL.rule hc hsc hk
    cases hl.unique hgs'
    have hcl : ctx.tree.Child c l := (Tree.child_of_kind hk).mpr (by simp [NodeKind.children])
    have hcr : ctx.tree.Child c r := (Tree.child_of_kind hk).mpr (by simp [NodeKind.children])
    have hright : Truths ctx.tree s₀ hs (hs.flatMap (truthOf ctx.tree s₀)) :=
      ⟨fun g hg => htruths.known g (List.mem_append_right _ hg), rfl⟩
    have hids : ids = left ++ hs.flatMap (truthOf ctx.tree s₀) := by
      rw [htruths.all, List.flatMap_append, ← hleft.all]
    have hfirst := ihl (hc.tail hcl) hplacedL hleft ho hconst
    have hsecond := ihr (hc.tail hcr) hplacedR hright (hnarrows.resolve hL.accounted.wf ho)
      (hfirst.isConst hconst)
    rw [hids, SymbolTable.latest_append, Tree.guardsOn_append, List.reverse_append]
    exact hfirst.append hsecond

theorem resolve_where_condition_holds (hL : Layout ctx root base s₀)
    (hi : ctx.tree.Reaches root i) (hin : ctx.tree.HoldsIn i condition branch)
    (hgs : ctx.tree.Conjuncts condition gs) (hplaced : s₀.Placed i σ)
    (ho : s₀.table.resolve σ name = some o) (hconst : s₀.table.isConst o = true) :
    ∃ τ id, s₀.Placed branch τ ∧ s₀.table.resolve τ name = some id ∧
      s₀.table.NarrowedBy name o (ctx.tree.guardsOn name gs).reverse id := by
  obtain ⟨inner, hsc⟩ := hplaced
  obtain ⟨gs', ids, τ, hgs', htruths, hnarrows, hcondition, hbranch⟩ :
      ∃ gs ids τ, ctx.tree.Conjuncts condition gs ∧ Truths ctx.tree s₀ gs ids ∧
        s₀.Narrows σ τ ids ∧ s₀.Placed condition σ ∧ s₀.Placed branch τ := by
    rcases hin with ⟨elseBranch, hk⟩ | hk
    · obtain ⟨gs, ids, τ, hgs, hids, hτ, -, hcondition, hbranch, -⟩ := hL.rule hi hsc hk
      exact ⟨gs, ids, τ, hgs, hids, hτ, hcondition, hbranch⟩
    · obtain ⟨gs, ids, τ, hgs, hids, hτ, -, hcondition, hbranch⟩ := hL.rule hi hsc hk
      exact ⟨gs, ids, τ, hgs, hids, hτ, hcondition, hbranch⟩
  cases hgs.unique hgs'
  exact ⟨τ, _, hbranch, hnarrows.resolve hL.accounted.wf ho,
    narrowedBy_conjuncts hL hgs (hi.tail hin.child) hcondition htruths ho hconst⟩

/-! ## The type of a name that is narrowed -/

namespace Findings

variable {f : Findings} {ty : Ty}

/-- The type that a guard asserts. -/
def asserted? (f : Findings) (ctx : Context) (g : NodeIndex) : Option Ty :=
  match ctx.tree.kind? g with
  | some (.typeTest _ target) => f.type? target
  | _ => none

/-- The type of a narrowed symbol is that of its origin, narrowed by each guard in turn. -/
theorem SymbolHasType.of_narrowedBy (h : f.SymbolHasType ctx id ty)
    (hid : f.table.NarrowedBy name o gs id) :
    ∃ (declared : Ty) (asserted : List Ty), f.SymbolHasType ctx o declared ∧
      gs.map (f.asserted? ctx) = asserted.map some ∧
      ty = asserted.foldr ctx.env.definitions.narrow declared := by
  induction gs generalizing id ty with
  | nil =>
    cases hid
    exact ⟨ty, [], h, rfl, rfl⟩
  | cons g earlier ih =>
    obtain ⟨original, hsym, horiginal⟩ := hid
    cases h with
    | @narrowed _ _ _ _ _ _ _ last hsym' hkind hasserted hdeclared hty =>
      rw [hsym] at hsym'
      cases hsym'
      obtain ⟨declared, asserted, ho, hmap, rfl⟩ := ih hdeclared horiginal
      refine ⟨declared, last :: asserted, ho, ?_, rfl⟩
      rw [List.map_cons, List.map_cons, hmap, asserted?, hkind]
      exact congrArg (· :: _) hasserted
    | host hsym' => simp [hsym] at hsym'
    | source hsym' => simp [hsym] at hsym'
    | parameter hsym' => simp [hsym] at hsym'

end Findings

/-- Where a condition holds, a name that means a constant means what the guards on it make of the
constant one after the other, and what is read there is narrowed in the same order. -/
theorem conjoined_guards_compose {expected : Option Ty} {table table' : SymbolTable}
    {result : CheckResult} {sc : NodeScopes} (hp : ctx.tree.Proper root)
    (htypes : ctx.tree.TypesInPlace root) (hhost : table.HostScope σ)
    (hcheck : check ctx table root σ expected = (result, table'))
    (hi : ctx.tree.Reaches root i) (hin : ctx.tree.HoldsIn i condition branch)
    (hgs : ctx.tree.Conjuncts condition gs) (hsc : result.nodes.scopes? i = some sc)
    (ho : table'.resolve sc.scope name = some o) (hconst : table'.isConst o = true) :
    ∃ inner id, result.nodes.scopes? branch = some inner ∧
      table'.resolve inner.scope name = some id ∧
      table'.NarrowedBy name o (ctx.tree.guardsOn name gs).reverse id ∧
      (result.diagnostics = [] → ∀ n r, ctx.tree.kind? n = some (.identifier name) →
        result.nodes.resolution? n = some r → r.binding = .symbol id →
        ∃ (declared : Ty) (asserted : List Ty),
          Findings.SymbolHasType ctx ⟨result.nodes, table', result.symbolTypes⟩ o declared ∧
          (ctx.tree.guardsOn name gs).reverse.map
            (Findings.asserted? ⟨result.nodes, table', result.symbolTypes⟩ ctx) =
              asserted.map some ∧
          r.ty = asserted.foldr ctx.env.definitions.narrow declared) := by
  obtain ⟨ty, s, heq, hconcluded⟩ := check_spec expected hp htypes hhost
  rw [heq] at hcheck
  cases hcheck
  obtain ⟨s₀, hL, hlater⟩ := hconcluded.layout
  rw [hlater.table] at ho hconst
  have hplaced : s₀.Placed i sc.scope := ⟨sc.inner, (hlater.scopes i).symm.trans hsc⟩
  obtain ⟨τ, id, ⟨inner, hbranch⟩, hid, hnarrowed⟩ :=
    resolve_where_condition_holds hL hi hin hgs hplaced ho hconst
  rw [← hlater.table] at hid hnarrowed
  refine ⟨⟨τ, inner⟩, id, (hlater.scopes branch).trans hbranch, hid, hnarrowed, ?_⟩
  intro hclean n r hk hr hbound
  have hn : ctx.tree.Reaches root n :=
    hconcluded.reaches (Findings.type?_eq_some.mpr ⟨r, hr, rfl⟩)
  obtain ⟨r', kind, hr', hk', hrule⟩ := hconcluded.rule hclean hn
  rw [hr] at hr'
  rw [hk] at hk'
  cases hr'
  cases hk'
  obtain ⟨id', -, hbound', hty⟩ := hrule
  rw [hbound] at hbound'
  cases hbound'
  exact hty.of_narrowedBy hnarrowed

/-- `if (v is string and (w is string and v is number)) v`, with `v` and `w` given by the host. -/
def twiceGuardedContext : Context where
  env := .initial
  options := {}
  tree := ⟨#[⟨.identifier "v", Span.empty⟩, ⟨.typeRef "string" [], Span.empty⟩,
    ⟨.typeTest 0 1, Span.empty⟩, ⟨.identifier "w", Span.empty⟩, ⟨.typeRef "string" [], Span.empty⟩,
    ⟨.typeTest 3 4, Span.empty⟩, ⟨.identifier "v", Span.empty⟩, ⟨.typeRef "number" [], Span.empty⟩,
    ⟨.typeTest 6 7, Span.empty⟩, ⟨.conjunction 5 8, Span.empty⟩, ⟨.conjunction 2 9, Span.empty⟩,
    ⟨.identifier "v", Span.empty⟩, ⟨.conditional 10 11 none, Span.empty⟩]⟩

def twiceGuardedTable : SymbolTable :=
  (SymbolTable.hostScope {} [("v", .union [Ty.number, Ty.string]),
    ("w", .union [Ty.number, Ty.string])]).2

/-- Each of the two guards leaves something of `v`, but together they leave nothing. -/
theorem guards_together_leave_never :
    ∃ result table', check twiceGuardedContext twiceGuardedTable 12 0 none = (result, table') ∧
      ∃ inner id r, result.nodes.scopes? 11 = some inner ∧
        table'.resolve inner.scope "v" = some id ∧ table'.NarrowedBy "v" 0 [8, 2] id ∧
        result.nodes.resolution? 11 = some r ∧ r.ty = Ty.never ∧
        ∃ (declared : Ty) (asserted : List Ty), Findings.SymbolHasType twiceGuardedContext
            ⟨result.nodes, table', result.symbolTypes⟩ 0 declared ∧
          [8, 2].map (Findings.asserted? ⟨result.nodes, table', result.symbolTypes⟩
            twiceGuardedContext) = asserted.map some ∧
          r.ty = asserted.foldr twiceGuardedContext.env.definitions.narrow declared := by
  have hp : twiceGuardedContext.tree.Proper 12 := by
    apply Tree.Proper.of_slots <;> decide
  have htypes : twiceGuardedContext.tree.TypesInPlace 12 := by
    apply Tree.TypesInPlace.of_nodes
    decide
  have hhost : twiceGuardedTable.HostScope 0 := SymbolTable.hostScope_spec _
  have htest : ∀ {g a b}, twiceGuardedContext.tree.kind? g = some (.typeTest a b) →
      twiceGuardedContext.tree.Conjuncts g [g] := fun hk => .single (by simp [hk])
  have hgs : twiceGuardedContext.tree.Conjuncts 10 ([2] ++ ([5] ++ [8])) :=
    .both (l := 2) (r := 9) (by decide) (htest (a := 0) (b := 1) (by decide))
      (.both (l := 5) (r := 8) (by decide) (htest (a := 3) (b := 4) (by decide))
        (htest (a := 6) (b := 7) (by decide)))
  have hin : twiceGuardedContext.tree.HoldsIn 12 10 11 := Or.inl ⟨none, by decide⟩
  have hguards : twiceGuardedContext.tree.guardsOn "v" [2, 5, 8] = [2, 8] := by decide
  have hclean : (check twiceGuardedContext twiceGuardedTable 12 0 none).1.diagnostics = [] := by
    decide +kernel
  have hroot : (check twiceGuardedContext twiceGuardedTable 12 0 none).1.nodes.scopes? 12 =
      some ⟨0, some 3⟩ := by decide +kernel
  have ho : (check twiceGuardedContext twiceGuardedTable 12 0 none).2.resolve 0 "v" = some 0 := by
    decide +kernel
  have hconst : (check twiceGuardedContext twiceGuardedTable 12 0 none).2.isConst 0 = true := by
    decide +kernel
  have hread : (check twiceGuardedContext twiceGuardedTable 12 0 none).1.nodes.resolution? 11 =
      some ⟨⟨3, none⟩, .never, .symbol 4⟩ := by decide +kernel
  have hid : (check twiceGuardedContext twiceGuardedTable 12 0 none).2.resolve 3 "v" = some 4 := by
    decide +kernel
  generalize hcheck : check twiceGuardedContext twiceGuardedTable 12 0 none = outcome at *
  obtain ⟨result, table'⟩ := outcome
  have hscopes : result.nodes.scopes? 11 = some ⟨3, none⟩ := NodeStates.scopes?_of_resolution hread
  obtain ⟨inner, id, hinner, hmeans, hnarrowed, htype⟩ := conjoined_guards_compose hp htypes hhost
    hcheck (.refl _ 12) hin hgs hroot ho hconst
  rw [hscopes] at hinner
  cases hinner
  rw [hid] at hmeans
  cases hmeans
  simp only [List.cons_append, List.nil_append, hguards] at hnarrowed htype
  exact ⟨result, table', rfl, _, 4, _, hscopes, hid, hnarrowed, hread, rfl,
    htype hclean 11 _ (by decide) hread rfl⟩

end ScriptTyping
