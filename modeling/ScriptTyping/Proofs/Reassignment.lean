import ScriptTyping.Proofs.Bindings
import ScriptTyping.Proofs.GuardOperands
import ScriptTyping.Proofs.Translation

/-!
# Narrowed bindings are never reassigned

The first phase narrows constants only, and the second assigns to variables only. Both decide by the
same symbol, through scopes that hide each other and chains of narrowings, so what is narrowed
somewhere is assigned nowhere.
-/

namespace ScriptTyping

open Session Check Generate

variable {ctx : Context} {root i n : NodeIndex} {base id o σ : Nat} {s₀ s : Session}
  {expected : Option Ty} {table table' : SymbolTable} {result : CheckResult} {name : String}

/-! ## What is narrowed -/

theorem Symbol.isNarrowed_iff {sym : Symbol} :
    sym.isNarrowed = true ↔ ∃ o g, sym.origin = .narrowed o g := by
  unfold Symbol.isNarrowed
  split
  · rename_i o g horigin
    exact ⟨fun _ => ⟨o, g, horigin⟩, fun _ => rfl⟩
  · rename_i hnot
    exact ⟨by simp, fun ⟨o, g, horigin⟩ => absurd horigin (hnot o g)⟩

theorem Layout.original_const (h : Layout ctx root base s₀) {g : NodeIndex}
    (hsym : s₀.table.symbol? id = some ⟨name, .narrowed o g⟩) : s₀.table.isConst o = true := by
  obtain ⟨operand, -, hoperand⟩ := h.accounted.operand h.wired (h.base_le hsym (by simp)) hsym
  exact hoperand.const

theorem Layout.unnarrowed_const (h : Layout ctx root base s₀) {g : NodeIndex}
    (hsym : s₀.table.symbol? id = some ⟨name, .narrowed o g⟩) :
    ∃ sym, s₀.table.symbol? (s₀.table.unnarrowed id) = some sym ∧ sym.isConst = true ∧
      sym.isNarrowed = false := by
  induction id using Nat.strong_induction_on generalizing name o g with
  | _ id ih =>
    have hconst := h.original_const hsym
    rw [SymbolTable.unnarrowed_original h.originalsFirst hsym]
    unfold SymbolTable.isConst at hconst
    split at hconst
    · rename_i sym ho
      cases hnarrowed : sym.isNarrowed with
      | true =>
        obtain ⟨name', origin⟩ := sym
        obtain ⟨o', g', rfl⟩ := Symbol.isNarrowed_iff.mp hnarrowed
        exact ih o (h.originalsFirst hsym) ho
      | false =>
        have hself : s₀.table.unnarrowed o = o := by
          refine SymbolTable.unnarrowedWithin_self (fun name' o' g' ho' => ?_) _
          rw [ho] at ho'
          cases ho'
          cases hnarrowed
        exact ⟨sym, by rwa [hself], hconst, hnarrowed⟩
    · cases hconst

/-! ## What is assigned -/

theorem Symbol.not_narrowed_of_variable {sym : Symbol} (h : sym.isConst = false) :
    sym.isNarrowed = false := by
  obtain ⟨name, origin⟩ := sym
  cases origin with
  | narrowed o g => cases h
  | _ => rfl

theorem SymbolTable.symbol_of_resolve (hwf : table.WellFormed) (h : table.resolve σ name = some id) :
    ∃ sym, table.symbol? id = some sym :=
  SymbolTable.exists_symbol ((SymbolTable.sees_of_resolve h).1.lt hwf)

theorem Session.Bindings.assigned (h : s.Bindings ctx) (hwf : s.table.WellFormed) {r : Resolution}
    (hr : s.nodes.resolution? n = some r) (hbinding : r.binding = .assignment id) :
    ∃ target value, ctx.tree.kind? n = some (.assignment target value) ∧
      (∃ name r', ctx.tree.kind? target = some (.identifier name) ∧
        s.nodes.resolution? target = some r' ∧ r'.binding = .symbol id) ∧
      ∃ sym, s.table.symbol? id = some sym ∧ sym.isConst = false := by
  obtain ⟨kind, hk, hrule⟩ := h n r hr
  rw [hbinding] at hrule
  obtain ⟨target, value, rfl, hbound, hconst⟩ := hrule
  obtain ⟨r', hr', hsymbol⟩ := boundSymbol?_eq_some.mp hbound
  obtain ⟨kind', hk', hrule'⟩ := h target r' hr'
  rw [hsymbol] at hrule'
  obtain ⟨name, rfl, hmeant⟩ := hrule'
  obtain ⟨sym, hsym⟩ := SymbolTable.symbol_of_resolve hwf hmeant
  refine ⟨target, value, hk, ⟨name, r', hk', hr', hsymbol⟩, sym, hsym, ?_⟩
  simpa [SymbolTable.isConst, hsym] using hconst

/-! ## What is generated -/

def Exec.isVariable : Exec → Bool
  | hostValue .. => true
  | localValue .. => true
  | _ => false

variable {c : Checked} {nodes : NodeStates} {e : Exec} {depth : Nat}

theorem translate_variable {r : Resolution} {sym : Symbol} (hr : nodes.resolution? i = some r)
    (hbinding : r.binding = .symbol id) (hk : c.tree.kind? i = some (.identifier name))
    (hsym : c.table.symbol? id = some sym) (hplain : sym.isNarrowed = false)
    (h : translate c nodes depth i = some e) : e.isVariable = true := by
  cases depth with
  | zero => simp [translate] at h
  | succ depth =>
    obtain ⟨⟨kind, span⟩, r', es, hnode, hr', hes, he⟩ := translate_succ.mp h
    cases hr.symm.trans hr'
    cases hk.symm.trans (Tree.kind_of_get hnode)
    cases mapM_eq_some_iff.mp hes
    simp only [compose, innerType?, hbinding, hsym, Option.any_some, hplain, readAt] at he
    obtain ⟨base, -, rfl⟩ := Option.map_eq_some_iff.mp he
    simp only [Bool.false_eq_true, if_false]
    unfold readPlain
    split <;> rfl

theorem compose_assign {node : Node} {r : Resolution} {es : List Exec} {site : Site}
    {target value : Exec} (h : compose c nodes node r es = some (.assign site target value)) :
    (∃ id, r.binding = .assignment id) ∧ es = [target, value] := by
  unfold compose at h
  dsimp only at h
  split at h
  case h_1 =>
    obtain ⟨s, -, hread⟩ := Option.map_eq_some_iff.mp h
    unfold readAt at hread
    split at hread
    · unfold readPlain at hread
      split at hread <;> cases hread
    · cases hread
  case h_7 =>
    simp only [Option.some.injEq] at h
    unfold readAt at h
    split at h <;> cases h
  case h_13 hbinding =>
    cases h
    exact ⟨⟨_, hbinding⟩, rfl⟩
  all_goals cases h

/-- Every assignment in a translation has a variable as its target. -/
theorem Session.Bindings.translate_assign (h : s.Bindings ctx) (hwf : s.table.WellFormed)
    (htree : c.tree = ctx.tree) (htable : c.table = s.table) {path : List Exec} {site : Site}
    {target value : Exec} (he : translate c s.nodes depth i = some e)
    (hx : e.Encloses path (.assign site target value)) : target.isVariable = true := by
  induction depth generalizing i e path with
  | zero => simp [translate] at he
  | succ depth ih =>
    obtain ⟨node, r, es, hnode, hr, hes, hcompose⟩ := translate_succ.mp he
    rcases compose_encloses hcompose hx with rfl | ⟨child, hchild, rest, hx, -⟩ | ⟨site', heq⟩ |
      ⟨site', -, hread⟩
    · obtain ⟨⟨id, hbinding⟩, rfl⟩ := compose_assign hcompose
      obtain ⟨j, value', hk, ⟨name, r', hkj, hrj, hsymbol⟩, sym, hsym, hconst⟩ :=
        h.assigned hwf hr hbinding
      have hkind : node.kind = .assignment j value' := by
        rw [htree] at hnode
        exact Option.some.inj ((Tree.kind_of_get hnode).symm.trans hk)
      rw [hkind] at hes
      cases mapM_eq_some_iff.mp hes with
      | cons htarget _ =>
        exact translate_variable hrj hsymbol (htree ▸ hkj) (htable ▸ hsym)
          (Symbol.not_narrowed_of_variable hconst) htarget
    · obtain ⟨j, -, hj⟩ := exists_of_mem_mapM hes hchild
      exact ih hj hx
    · cases heq
    · cases hread

/-! ## After a check -/

/-- After a check, clean or not: what is narrowed is a constant in the end, what is assigned is a
variable that is narrowed nowhere, and an assignment that is generated is one to a variable. -/
theorem narrowed_never_reassigned (hp : ctx.tree.Proper root) (htypes : ctx.tree.TypesInPlace root)
    (hhost : table.HostScope σ) (hcheck : check ctx table root σ expected = (result, table')) :
    (∀ id sym, table'.symbol? id = some sym → sym.isNarrowed = true →
      ∃ sym', table'.symbol? (table'.unnarrowed id) = some sym' ∧ sym'.isConst = true ∧
        sym'.isNarrowed = false) ∧
    (∀ n r id, result.nodes.resolution? n = some r → r.binding = .assignment id →
      ∃ sym, table'.symbol? id = some sym ∧ sym.isConst = false ∧ sym.isNarrowed = false ∧
        ∀ id' sym', table'.symbol? id' = some sym' → sym'.isNarrowed = true →
          table'.unnarrowed id' ≠ id) ∧
    ∀ e, (result.generate ctx.tree ctx.env table' root).1 = .ok e →
      ∀ path site target value, e.Encloses path (.assign site target value) →
        target.isVariable = true := by
  obtain ⟨s₀, s, hL, honward, hbindings, hnodes, rfl⟩ := check_bindings hp htypes hhost hcheck
  have hwf : s.table.WellFormed := honward.table ▸ hL.accounted.wf
  have hnarrowed : ∀ id sym, s.table.symbol? id = some sym → sym.isNarrowed = true →
      ∃ sym', s.table.symbol? (s.table.unnarrowed id) = some sym' ∧ sym'.isConst = true ∧
        sym'.isNarrowed = false := by
    rintro id ⟨name, origin⟩ hsym hn
    obtain ⟨o, g, rfl⟩ := Symbol.isNarrowed_iff.mp hn
    rw [honward.table] at hsym ⊢
    exact hL.unnarrowed_const hsym
  refine ⟨hnarrowed, fun n r id hr hbinding => ?_, fun e he path site target value hx => ?_⟩
  · rw [← hnodes] at hr
    obtain ⟨-, -, -, -, sym, hsym, hconst⟩ := hbindings.assigned hwf hr hbinding
    refine ⟨sym, hsym, hconst, Symbol.not_narrowed_of_variable hconst, ?_⟩
    rintro id' sym' hsym' hn rfl
    obtain ⟨base, hbase, hconst', -⟩ := hnarrowed id' sym' hsym' hn
    rw [hsym] at hbase
    cases hbase
    simp [hconst] at hconst'
  · obtain ⟨htranslate, -⟩ := generate_yields hp htypes (Prod.ext he rfl)
    rw [← hnodes] at htranslate
    exact hbindings.translate_assign (c := result.checked ctx s.table) hwf rfl rfl htranslate hx

/-- `{ let x = v; if (v is string) { x = v } }`, with a `v` given by the host. -/
def assigningContext : Context where
  env := .initial
  options := {}
  tree := ⟨#[⟨.identifier "v", Span.empty⟩, ⟨.declaration "x" false none 0, Span.empty⟩,
    ⟨.identifier "v", Span.empty⟩, ⟨.typeRef "string" [], Span.empty⟩, ⟨.typeTest 2 3, Span.empty⟩,
    ⟨.identifier "x", Span.empty⟩, ⟨.identifier "v", Span.empty⟩, ⟨.assignment 5 6, Span.empty⟩,
    ⟨.block [7], Span.empty⟩, ⟨.conditional 4 8 none, Span.empty⟩, ⟨.block [1, 9], Span.empty⟩]⟩

/-- The variable is assigned where `v` is narrowed, and stays apart from it. -/
theorem assigned_apart_from_narrowed : ∃ result table',
    check assigningContext guardedTable 10 0 none = (result, table') ∧
      (∃ r, result.nodes.resolution? 7 = some r ∧ r.binding = .assignment 1) ∧
      table'.symbol? 2 = some ⟨"v", .narrowed 0 4⟩ ∧ table'.unnarrowed 2 ≠ 1 := by
  have hp : assigningContext.tree.Proper 10 := by
    apply Tree.Proper.of_slots <;> decide
  have htypes : assigningContext.tree.TypesInPlace 10 := by
    apply Tree.TypesInPlace.of_nodes
    decide
  have hhost : guardedTable.HostScope 0 := SymbolTable.hostScope_spec _
  have hassigned : ((check assigningContext guardedTable 10 0 none).1.nodes.resolution? 7).map
      (·.binding) = some (.assignment 1) := by decide +kernel
  have hnarrowed : (check assigningContext guardedTable 10 0 none).2.symbol? 2 =
      some ⟨"v", .narrowed 0 4⟩ := by decide +kernel
  generalize hcheck : check assigningContext guardedTable 10 0 none = outcome at hassigned hnarrowed
  obtain ⟨result, table'⟩ := outcome
  obtain ⟨r, hr, hbinding⟩ := Option.map_eq_some_iff.mp hassigned
  refine ⟨result, table', rfl, ⟨r, hr, hbinding⟩, hnarrowed, ?_⟩
  obtain ⟨-, -, -, -, hapart⟩ :=
    (narrowed_never_reassigned hp htypes hhost hcheck).2.1 7 r 1 hr hbinding
  exact hapart 2 _ hnarrowed rfl

end ScriptTyping
