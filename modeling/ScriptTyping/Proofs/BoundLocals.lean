import ScriptTyping.Compile
import ScriptTyping.Proofs.Reassignment

/-!
# Bound locals

In the executable form a local is read only below the lambda or the block that binds it, narrowed
or not, and a value of the host is one that the root scope lists.

A local that is read has a type and is seen where it is read. On the way up it stays seen until the
node that brings it into view, and that node binds it: a block since the declaration among its
statements is translated too, a lambda since it binds those of its parameters that have a type.
-/

namespace ScriptTyping

open Session Check Generate

variable {ctx : Context} {root c i n : NodeIndex} {base id σ τ : Nat} {s₀ s s' : Session}
  {expected : Option Ty} {table table' : SymbolTable} {name : String} {sc : NodeScopes} {ty : Ty}

/-! ## What is seen of the host -/

theorem Accounted.child_scope (h : Accounted ctx root base s) {kind : NodeKind}
    (hrule : WiringRule ctx s i sc kind) (hc : c ∈ kind.children) :
    s.Placed c sc.scope ∨ ∃ τ ids, s.Placed c τ ∧ s.table.scope? τ = some ⟨some sc.scope, ids⟩ ∧
      ∀ id ∈ ids, ∃ name origin, s.table.symbol? id = some ⟨name, origin⟩ ∧
        ∀ ty c, origin ≠ .host ty c := by
  have hnarrows : ∀ {τ gs ids}, Truths ctx.tree s gs ids → s.Narrows sc.scope τ ids →
      s.Placed c τ → s.Placed c sc.scope ∨ ∃ τ ids, s.Placed c τ ∧
        s.table.scope? τ = some ⟨some sc.scope, ids⟩ ∧
        ∀ id ∈ ids, ∃ name origin, s.table.symbol? id = some ⟨name, origin⟩ ∧
          ∀ ty c, origin ≠ .host ty c := by
    rintro τ gs ids htruths (⟨-, rfl⟩ | ⟨-, hscope⟩) hplaced
    · exact Or.inl hplaced
    · refine Or.inr ⟨τ, ids.reverse, hplaced, hscope, fun id hid => ?_⟩
      rw [List.mem_reverse, htruths.all, List.mem_flatMap] at hid
      obtain ⟨g, hg, hmem⟩ := hid
      unfold truthOf at hmem
      split at hmem
      · cases hmem
      · rename_i name hname
        obtain ⟨known, hknown⟩ := htruths.known g hg (by simp [hname])
        rw [hknown, Option.getD_some] at hmem
        obtain ⟨o, hsym⟩ := (h.truths hknown).2 name hname id hmem
        exact ⟨name, .narrowed o g, hsym, by simp⟩
  cases kind with
  | conditional condition thenBranch elseBranch =>
    obtain ⟨gs, ids, τ, -, htruths, hτ, -, hcond, hthen, helse⟩ := hrule
    simp only [NodeKind.children, List.mem_cons, Option.mem_toList] at hc
    rcases hc with rfl | rfl | hc
    · exact Or.inl hcond
    · exact hnarrows htruths hτ hthen
    · exact Or.inl (helse c hc)
  | conjunction left right =>
    obtain ⟨gs, ids, τ, -, htruths, hτ, -, hleft, hright⟩ := hrule
    simp only [NodeKind.children, List.mem_cons, List.not_mem_nil, or_false] at hc
    rcases hc with rfl | rfl
    · exact Or.inl hleft
    · exact hnarrows htruths hτ hright
  | lambda params body =>
    obtain ⟨τ, ids, -, hscope, hids, has, hbody⟩ := hrule
    simp only [NodeKind.children, List.mem_append, List.mem_singleton] at hc
    rcases hc with hc | rfl
    · exact Or.inl (has c hc)
    · refine Or.inr ⟨τ, ids, hbody, hscope, fun id hid => ?_⟩
      have hsome : s.table.symbol? id ∈ ids.map s.table.symbol? := List.mem_map_of_mem hid
      rw [hids] at hsome
      obtain ⟨p, -, hp⟩ := List.mem_map.mp hsome
      exact ⟨p.1, .parameter i p.2, hp.symm, by simp⟩
  | block statements =>
    obtain ⟨τ, ids, -, hscope, hids, hplaced⟩ := hrule
    refine Or.inr ⟨τ, ids, hplaced c hc, hscope, fun id hid => ?_⟩
    have hsome : some id ∈ ids.map some := List.mem_map_of_mem hid
    rw [← hids] at hsome
    obtain ⟨d, -, hd⟩ := List.mem_map.mp hsome
    obtain ⟨-, -, name, isConst, -, -, -, hsym⟩ := h.declared hd
    exact ⟨name, .source d isConst, hsym, by simp⟩
  | declaration name isConst ascription initializer =>
    obtain ⟨-, -, has, hinit⟩ := hrule
    simp only [NodeKind.children, List.mem_append, Option.mem_toList, List.mem_singleton] at hc
    rcases hc with hc | rfl
    · exact Or.inl (has c hc)
    · exact Or.inl hinit
  | typeTest operand target =>
    obtain ⟨-, hoperand, htarget, -⟩ := hrule
    simp only [NodeKind.children, List.mem_cons, List.not_mem_nil, or_false] at hc
    rcases hc with rfl | rfl
    · exact Or.inl hoperand
    · exact Or.inl htarget
  | _ => exact Or.inl (hrule.2 c hc)

/-- Of the host a node sees what the given scope of the given table shows. -/
def Session.SeesHostOf (ctx : Context) (root : NodeIndex) (table : SymbolTable) (σ : ScopeId)
    (s : Session) : Prop :=
  ∀ n sc id, ctx.tree.Reaches root n → s.nodes.scopes? n = some sc →
    id < table.symbols.size → s.table.Sees sc.scope id → table.Sees σ id

theorem Walked.seesHostOf (hp : ctx.tree.Proper root) (htypes : ctx.tree.TypesInPlace root)
    (hhost : table.HostScope σ) (h : Walked ctx root σ (.start ctx table) s)
    (hacc : Accounted ctx root table.symbols.size s) : s.SeesHostOf ctx root table σ := by
  have hL := h.layout hp htypes hhost hacc
  intro n sc id hn hsc hid hsees
  induction hn generalizing sc with
  | refl =>
    obtain ⟨inner, hroot⟩ := h.placed
    cases hsc.symm.trans hroot
    exact (h.grows.table.sees_iff hhost.wf hacc.wf hhost.lt).mp hsees
  | @tail p c hroot hc ih =>
    obtain ⟨scp, kind, hwired, -, hk, hrule⟩ := h.rules hroot
    have hplaced : s.Placed c sc.scope := ⟨sc.inner, hsc⟩
    rcases hacc.child_scope hrule ((Tree.child_of_kind hk).mp hc) with hsame |
      ⟨τ, ids, hτ, hscope, hnew⟩
    · rw [hplaced.unique hsame] at hsees
      exact ih scp (scopes_of_wired hwired) hsees
    · rw [hplaced.unique hτ, SymbolTable.sees_iff hacc.wf hscope] at hsees
      rcases hsees with hlisted | ⟨p', hp', hsees⟩
      · obtain ⟨name, origin, hsym, hne⟩ := hnew id hlisted
        exact absurd (hL.base_le hsym hne) (by omega)
      · cases hp'
        exact ih scp (scopes_of_wired hwired) hsees

theorem Session.SeesHostOf.onward (h : s.SeesHostOf ctx root table σ) (hs : s.Onward s') :
    s'.SeesHostOf ctx root table σ := by
  intro n sc id hn hsc hid hsees
  rw [hs.scopes] at hsc
  rw [hs.table] at hsees
  exact h n sc id hn hsc hid hsees

theorem checkRoot_seesHostOf (hp : ctx.tree.Proper root) (htypes : ctx.tree.TypesInPlace root)
    (hhost : table.HostScope σ) :
    (checkRoot ctx root σ expected).After (.start ctx table) fun _ s =>
      s.SeesHostOf ctx root table σ := by
  have hkeeps : ∀ {i expected} s, s.SeesHostOf ctx root table σ →
      (Check.resolve ctx i expected).After s fun _ s' => s'.SeesHostOf ctx root table σ :=
    fun {i expected} s h => h.onward (resolveWithin_onward ctx _ i expected s)
  refine checkRoot_after ?_ hkeeps ?_ fun s h => resolveRest_after (fun i _ => hkeeps) h
  · refine (wire_spec hp hhost.wf hhost.lt).mono ?_
    rintro - s₀ ⟨hwalked, hacc⟩
    exact hwalked.seesHostOf hp htypes hhost hacc
  · intro s ty target h
    exact (checkAssignable_onward root ty target s).mono fun _ s' hs' => h.onward hs'

/-! ## What an identifier reads -/

namespace Findings

variable {f : Findings}

theorem SymbolHasType.unnarrowed (h : f.SymbolHasType ctx id ty) (hL : Layout ctx root base s₀)
    (htable : f.table = s₀.table) (hsees : f.table.Sees τ id) :
    f.table.Sees τ (f.table.unnarrowed id) ∧ ∃ sym ty,
      f.table.symbol? (f.table.unnarrowed id) = some sym ∧ sym.isNarrowed = false ∧
      f.SymbolHasType ctx (f.table.unnarrowed id) ty := by
  have hself : ∀ {id sym ty}, f.table.symbol? id = some sym → sym.isNarrowed = false →
      f.SymbolHasType ctx id ty → f.table.Sees τ id → f.table.Sees τ (f.table.unnarrowed id) ∧
      ∃ sym ty, f.table.symbol? (f.table.unnarrowed id) = some sym ∧ sym.isNarrowed = false ∧
        f.SymbolHasType ctx (f.table.unnarrowed id) ty := by
    intro id sym ty hsym hplain hty hsees
    have heq : f.table.unnarrowed id = id := by
      refine SymbolTable.unnarrowedWithin_self (fun name o g hsym' => ?_) _
      rw [hsym] at hsym'
      cases hsym'
      cases hplain
    rw [heq]
    exact ⟨hsees, sym, ty, hsym, hplain, hty⟩
  induction h with
  | host hsym => exact hself hsym rfl (.host hsym) hsees
  | source hsym hty => exact hself hsym rfl (.source hsym hty) hsees
  | parameter hsym hty => exact hself hsym rfl (.parameter hsym hty) hsees
  | narrowed hsym _ _ _ _ ih =>
    rw [htable] at hsym hsees ih ⊢
    rw [SymbolTable.unnarrowed_original hL.originalsFirst hsym]
    exact ih (hL.accounted.originals (hL.base_le hsym (by simp)) hsym hsees)

end Findings

/-- The node may read the symbol as a local: it is not narrowed, has a type and is seen there. -/
def Findings.ReadableAt (ctx : Context) (root : NodeIndex) (f : Findings) (id : SymbolId)
    (i : NodeIndex) : Prop :=
  ∃ sym, f.table.symbol? id = some sym ∧ sym.isNarrowed = false ∧ f.symbolTypes.get? id ≠ none ∧
    ctx.tree.VisibleAt root sym.origin i

/-- The node sees a symbol of the host by that name. -/
def Findings.SeesHost (f : Findings) (i : NodeIndex) (name : String) : Prop :=
  ∃ sc id ty isConst, f.nodes.scopes? i = some sc ∧ f.table.Sees sc.scope id ∧
    f.table.symbol? id = some ⟨name, .host ty isConst⟩

section

variable {f : Findings} {r : Resolution}

theorem Concluded.identifier_reads (h : Concluded ctx root expected table ty s)
    (hclean : s.diagnostics = []) (hi : ctx.tree.Reaches root i)
    (hk : ctx.tree.kind? i = some (.identifier name)) (hr : s.nodes.resolution? i = some r)
    (hbinding : r.binding = .symbol id) {sym : Symbol}
    (hsym : s.table.symbol? (s.table.unnarrowed id) = some sym) :
    (∃ ty isConst, sym.origin = .host ty isConst) ∧ s.findings.SeesHost i sym.name ∨
      (∀ ty isConst, sym.origin ≠ .host ty isConst) ∧
        s.findings.ReadableAt ctx root (s.table.unnarrowed id) i := by
  obtain ⟨r', kind, hr', hk', hrule⟩ := h.rule hclean hi
  cases hr.symm.trans hr'
  cases hk.symm.trans hk'
  obtain ⟨id', hmeant, hbinding', hty⟩ := hrule
  cases hbinding.symm.trans hbinding'
  obtain ⟨s₀, hL, hlater⟩ := h.layout
  obtain ⟨hsees, sym', ty', hsym', hplain, hty'⟩ :=
    hty.unnarrowed hL hlater.table (SymbolTable.sees_of_resolve hmeant).1
  cases hsym.symm.trans hsym'
  have hscopes : s.nodes.scopes? i = some r.scopes := NodeStates.scopes?_of_resolution hr
  have hseen : ∀ {name origin}, s.table.symbol? (s.table.unnarrowed id) = some ⟨name, origin⟩ →
      (∀ ty isConst, origin ≠ .host ty isConst) → ctx.tree.VisibleAt root origin i := by
    intro name origin hsym hne
    rw [hlater.scopes] at hscopes
    change s.table.Sees _ (s.table.unnarrowed id) at hsees
    rw [hlater.table] at hsym hsees
    exact (hL.sees hi hscopes (hL.base_le hsym hne) hsym).mp hsees
  cases hty' with
  | host hhost =>
    cases hsym.symm.trans hhost
    exact Or.inl ⟨⟨_, _, rfl⟩, _, _, _, _, hscopes, hsees, hhost⟩
  | source hsource htyped =>
    cases hsym.symm.trans hsource
    exact Or.inr ⟨by simp, _, hsource, rfl, Option.ne_none_iff_exists'.mpr ⟨_, htyped⟩,
      hseen hsource (by simp)⟩
  | parameter hparameter htyped =>
    cases hsym.symm.trans hparameter
    exact Or.inr ⟨by simp, _, hparameter, rfl, Option.ne_none_iff_exists'.mpr ⟨_, htyped⟩,
      hseen hparameter (by simp)⟩
  | narrowed hnarrowed =>
    cases hsym.symm.trans hnarrowed
    cases hplain

/-! ## What a node binds -/

namespace Exec

def declared? : Exec → Option SymbolId
  | declare _ id .. => some id
  | _ => none

/-- The symbols that a node binds for what is below it: the parameters of a lambda, and what the
statements of a block declare. -/
def binds : Exec → List SymbolId
  | lambda _ params _ => params.map (·.symbol)
  | block _ statements => statements.filterMap declared?
  | _ => []

end Exec

variable {c : Checked} {nodes : NodeStates} {e x : Exec} {es : List Exec} {depth : Nat} {j : NodeIndex}

theorem lambdaParams_symbols {params : List (String × Ty)} {result : Ty} {bound : List SymbolId}
    (h : bound.length = params.length) :
    (lambdaParams (.func params result) bound).map (·.symbol) = bound := by
  simp only [lambdaParams, List.map_map]
  exact List.map_fst_zip (Nat.le_of_eq h)

theorem Findings.ParametersTyped.length_eq {params : List LambdaParam} {symbols bound : List SymbolId}
    {resolved : List (String × Ty)} (h : f.ParametersTyped ctx params symbols resolved bound) :
    bound.length = resolved.length := by
  unfold ParametersTyped at h
  split at h
  · rcases h with ⟨rfl, rfl⟩ | ⟨id, ty, rfl, -, -, rfl⟩ <;> rfl
  · obtain ⟨rfl, -, htypes, -⟩ := h
    simpa using congrArg List.length htypes

theorem Concluded.lambda_binds (h : Concluded ctx root expected table ty s)
    (hclean : s.diagnostics = []) (hi : ctx.tree.Reaches root i) {params : List LambdaParam}
    {body : NodeIndex} (hk : ctx.tree.kind? i = some (.lambda params body)) {k : Nat}
    (hsym : s.table.symbol? id = some ⟨name, .parameter i k⟩)
    (htyped : s.symbolTypes.get? id ≠ none) (htree : c.tree = ctx.tree)
    (he : translate c s.nodes (depth + 1) i = some e) : id ∈ e.binds := by
  obtain ⟨⟨kind, span⟩, r, es, hnode, hr, hes, hcompose⟩ := translate_succ.mp he
  obtain ⟨r', kind', hr', hk', hrule⟩ := h.rule hclean hi
  cases hr.symm.trans hr'
  cases hk.symm.trans hk'
  rw [htree] at hnode
  cases hk.symm.trans (Tree.kind_of_get hnode)
  obtain ⟨τ, data, resolved, bound, result, -, -, -, hty, hbinding, hparams⟩ := hrule
  obtain ⟨s₀, hL, hlater⟩ := h.layout
  obtain ⟨bound', hbinding', hid⟩ :=
    (hlater.trace hclean).binds hk (hL.unresolved hi) hr hsym htyped
  cases hbinding.symm.trans hbinding'
  cases mapM_eq_some_iff.mp hes with
  | cons hbody hnil =>
    cases hnil
    simp only [compose, hbinding, hty, Option.some.injEq] at hcompose
    rw [← hcompose, Exec.binds, lambdaParams_symbols hparams.length_eq]
    exact hid

theorem Concluded.declaration_declares (h : Concluded ctx root expected table ty s)
    (hclean : s.diagnostics = []) {d : NodeIndex} {isConst : Bool}
    (hsym : s.table.symbol? id = some ⟨name, .source d isConst⟩) (htree : c.tree = ctx.tree)
    (he : translate c s.nodes depth d = some e) : e.declared? = some id := by
  obtain ⟨s₀, hL, hlater⟩ := h.layout
  have hsym₀ := hsym
  rw [hlater.table] at hsym₀
  obtain ⟨hd, hdeclared, ascription, initializer, hk⟩ := hL.source hsym₀
  cases depth with
  | zero => simp [translate] at he
  | succ depth =>
    obtain ⟨⟨kind, span⟩, r, es, hnode, hr, hes, hcompose⟩ := translate_succ.mp he
    obtain ⟨r', kind', hr', hk', hrule⟩ := h.rule hclean hd
    cases hr.symm.trans hr'
    cases hk.symm.trans hk'
    rw [htree] at hnode
    cases hk.symm.trans (Tree.kind_of_get hnode)
    obtain ⟨id', declared, -, hbinding, hsym', -⟩ := hrule
    change s.table.symbol? id' = _ at hsym'
    rw [hlater.table] at hsym'
    cases hdeclared.symm.trans (hL.source hsym').2.1
    cases mapM_eq_some_iff.mp hes with
    | cons hvalue hnil =>
      cases hnil
      simp only [compose, hbinding, Option.some.injEq] at hcompose
      rw [← hcompose]
      rfl

theorem Concluded.enters_binds (h : Concluded ctx root expected table ty s)
    (hclean : s.diagnostics = []) (hi : ctx.tree.Reaches root i) {sym : Symbol}
    (hsym : s.table.symbol? id = some sym) (hplain : sym.isNarrowed = false)
    (htyped : s.symbolTypes.get? id ≠ none) (henters : ctx.tree.Enters i j sym.origin)
    (htree : c.tree = ctx.tree) (he : translate c s.nodes (depth + 1) i = some e) :
    id ∈ e.binds := by
  obtain ⟨name, origin⟩ := sym
  cases origin with
  | source d isConst =>
    obtain ⟨statements, hk, hd⟩ := henters
    obtain ⟨⟨kind, span⟩, r, es, hnode, -, hes, hcompose⟩ := translate_succ.mp he
    rw [htree] at hnode
    cases hk.symm.trans (Tree.kind_of_get hnode)
    obtain ⟨e', he', hd'⟩ := exists_mapM_of_mem hes hd
    simp only [compose, Option.some.injEq] at hcompose
    rw [← hcompose]
    exact List.mem_filterMap.mpr ⟨e', he', h.declaration_declares hclean hsym htree hd'⟩
  | parameter l k =>
    obtain ⟨rfl, params, hk⟩ := henters
    exact h.lambda_binds hclean hi hk hsym htyped htree he
  | host ty isConst => exact henters.elim
  | narrowed o g => cases hplain

/-! ## What is read below a node -/

theorem readAt_variable {site : Site} {inner : Option Ty} {read : Site → Exec}
    (hread : ∀ site, (read site).isRead = true)
    (hx : x = readAt site inner read ∨ ∃ site', readAt site inner read = .convert site' x)
    (hvariable : x.isVariable = true) : ∃ site, x = read site := by
  cases inner with
  | none =>
    rcases hx with rfl | ⟨site', hx⟩
    · exact ⟨site, rfl⟩
    · have hconvert := hread site
      rw [show read site = .convert site' x from hx] at hconvert
      cases hconvert
  | some ty =>
    rcases hx with rfl | ⟨site', hx⟩
    · cases hvariable
    · cases hx
      exact ⟨_, rfl⟩

theorem compose_variable {node : Node} (h : compose c nodes node r es = some e)
    (hx : x = e ∨ ∃ site, e = .convert site x) (hvariable : x.isVariable = true) :
    ∃ name id sym site, node.kind = .identifier name ∧ r.binding = .symbol id ∧
      c.table.symbol? (c.table.unnarrowed id) = some sym ∧
      x = readPlain site (c.table.unnarrowed id) sym := by
  obtain ⟨kind, span⟩ := node
  unfold compose at h
  dsimp only at h
  split at h
  case h_1 name id hbinding =>
    obtain ⟨sym, hsym, rfl⟩ := Option.map_eq_some_iff.mp h
    obtain ⟨site, hx⟩ := readAt_variable (fun site => (readPlain_isRead site _ sym).1) hx hvariable
    exact ⟨name, id, sym, site, rfl, hbinding, hsym, hx⟩
  case h_7 =>
    cases h
    obtain ⟨site, rfl⟩ := readAt_variable (fun _ => rfl) hx hvariable
    cases hvariable
  case h_14 => cases h
  all_goals
    cases h
    rcases hx with rfl | ⟨site, hx⟩
    · cases hvariable
    · cases hx

/-- What is read below a node is bound on the path from it, or the node may read it itself. A value
of the host is seen where it is read. -/
def Findings.Reads (ctx : Context) (root : NodeIndex) (f : Findings) (path : List Exec)
    (i : NodeIndex) : Exec → Prop
  | .localValue _ id _ => (∃ a ∈ path, id ∈ a.binds) ∨ f.ReadableAt ctx root id i
  | .hostValue _ name => ∃ n, ctx.tree.Reaches root n ∧ f.SeesHost n name
  | _ => True

theorem Concluded.reads_parent (h : Concluded ctx root expected table ty s)
    (hclean : s.diagnostics = []) (hi : ctx.tree.Reaches root i) (hj : ctx.tree.Child i j)
    (htree : c.tree = ctx.tree) (he : translate c s.nodes (depth + 1) i = some e)
    {rest path : List Exec} (hself : e ∈ path) (hrest : rest ⊆ path)
    (hreads : s.findings.Reads ctx root rest j x) : s.findings.Reads ctx root path i x := by
  cases x with
  | localValue site id name =>
    rcases hreads with ⟨a, ha, hid⟩ | ⟨sym, hsym, hplain, htyped, hvisible⟩
    · exact Or.inl ⟨a, hrest ha, hid⟩
    · obtain ⟨s₀, hL, -⟩ := h.layout
      rcases (hL.proper.visibleAt_child hi hj).mp hvisible with hvisible | henters
      · exact Or.inr ⟨sym, hsym, hplain, htyped, hvisible⟩
      · exact Or.inl ⟨e, hself, h.enters_binds hclean hi hsym hplain htyped henters htree he⟩
  | hostValue site name => exact hreads
  | _ => trivial

theorem Concluded.translate_reads (h : Concluded ctx root expected table ty s)
    (hclean : s.diagnostics = []) (hi : ctx.tree.Reaches root i) (htree : c.tree = ctx.tree)
    (htable : c.table = s.table) (he : translate c s.nodes depth i = some e) {path : List Exec}
    (hx : e.Encloses path x) : s.findings.Reads ctx root path i x := by
  induction depth generalizing i e path with
  | zero => simp [translate] at he
  | succ depth ih =>
    obtain ⟨node, r, es, hnode, hr, hes, hcompose⟩ := translate_succ.mp he
    have hk : ctx.tree.kind? i = some node.kind := htree ▸ Tree.kind_of_get hnode
    -- An identifier is read by the node itself, in the inner read or without one.
    have hread : (x = e ∨ ∃ site, e = .convert site x) → s.findings.Reads ctx root path i x := by
      intro hown
      cases hvariable : x.isVariable with
      | true =>
        obtain ⟨name, id, sym, site, hkind, hbinding, hsym, rfl⟩ :=
          compose_variable hcompose hown hvariable
        rw [hkind] at hk
        rw [htable] at hsym ⊢
        unfold readPlain
        rcases h.identifier_reads hclean hi hk hr hbinding hsym with
          ⟨⟨ty, isConst, horigin⟩, hsees⟩ | ⟨hne, hreadable⟩
        · rw [horigin]
          exact ⟨i, hi, hsees⟩
        · split
          · rename_i horigin
            exact absurd horigin (hne _ _)
          · exact Or.inr hreadable
      | false => cases x <;> trivial
    rcases compose_encloses hcompose hx with rfl | ⟨child, hchild, rest, hx, hself, hrest⟩ |
      ⟨site, rfl⟩ | ⟨site, rfl, -⟩
    · exact hread (Or.inl rfl)
    · obtain ⟨j, hj, hchild⟩ := exists_of_mem_mapM hes hchild
      have hij : ctx.tree.Child i j :=
        (Tree.child_of_kind hk).mpr ((NodeKind.mem_children_iff _ _).mpr (Or.inr hj))
      exact h.reads_parent hclean hi hij htree he hself hrest (ih (hi.tail hij) hchild hx)
    · trivial
    · exact hread (Or.inr ⟨site, rfl⟩)

end

/-! ## After a compilation -/

variable {compiled : Compilation} {e : Exec}

theorem CheckResult.clean_of_hasErrors {result : CheckResult} (h : result.hasErrors = false) :
    result.diagnostics = [] := by
  unfold hasErrors at h
  cases hdiagnostics : result.diagnostics with
  | nil => rfl
  | cons d ds =>
    obtain ⟨code, ⟨⟩, message, span⟩ := d
    simp [hdiagnostics, Diagnostic.isError] at h

theorem compile_executable (h : compile ctx table root σ expected = (.ok compiled, table'))
    (he : compiled.executable = some e) :
    (check ctx table root σ expected).1.diagnostics = [] ∧
      ((check ctx table root σ expected).1.generate ctx.tree ctx.env
        (check ctx table root σ expected).2 root).1 = .ok e := by
  unfold compile at h
  dsimp only at h
  split at h
  · cases h
    cases he
  · rename_i hclean
    refine ⟨CheckResult.clean_of_hasErrors (by simpa using hclean), ?_⟩
    split at h
    · cases h
    · rename_i exec hexec
      cases h
      cases he
      exact hexec

/-- In the executable form of a tree every local is read below the node that binds it, and every
value of the host is one of the root scope. -/
theorem executable_well_scoped (hp : ctx.tree.Proper root) (htypes : ctx.tree.TypesInPlace root)
    (hhost : table.HostScope σ)
    (hcompile : compile ctx table root σ expected = (.ok compiled, table'))
    (he : compiled.executable = some e) :
    (∀ path site id name, e.Encloses path (.localValue site id name) →
      ∃ a ∈ path, id ∈ a.binds) ∧
    ∀ path site name, e.Encloses path (.hostValue site name) →
      ∃ ids id ty isConst, table.scope? σ = some ⟨none, ids⟩ ∧ id ∈ ids ∧
        table.symbol? id = some ⟨name, .host ty isConst⟩ := by
  obtain ⟨hclean, hgenerate⟩ := compile_executable hcompile he
  obtain ⟨htranslate, -⟩ := generate_yields hp htypes (Prod.ext hgenerate rfl)
  obtain ⟨hconcluded, hhosts⟩ : (checkRoot ctx root σ expected).After (.start ctx table) _ :=
    (checkRoot_spec hp htypes hhost).and (checkRoot_seesHostOf hp htypes hhost)
  have hreads : ∀ {path x}, e.Encloses path x → _ := fun hx =>
    hconcluded.translate_reads hclean (.refl _ root) rfl rfl htranslate hx
  refine ⟨fun path site id name hx => ?_, fun path site name hx => ?_⟩
  · rcases hreads hx with hbound | ⟨sym, -, -, -, hvisible⟩
    · exact hbound
    · exact absurd hvisible hp.not_visibleAt_root
  · obtain ⟨n, hn, sc, id, ty, isConst, hsc, hsees, hsym⟩ := hreads hx
    have hsym' := hconcluded.hosts hsym
    obtain ⟨ids, hscope⟩ := hhost.scope
    have hlisted := hhosts n sc id hn hsc (SymbolTable.symbol_lt hsym') hsees
    rw [SymbolTable.sees_iff hhost.wf hscope] at hlisted
    rcases hlisted with hid | ⟨p, hp', -⟩
    · exact ⟨ids, id, ty, isConst, hscope, hid, hsym'⟩
    · cases hp'

/-- The lambda `{ if (it is string) it else v }`, with a `v` given by the host. -/
def implicitContext : Context where
  env := .initial
  options := {}
  tree := ⟨#[⟨.identifier "it", Span.empty⟩, ⟨.typeRef "string" [], Span.empty⟩,
    ⟨.typeTest 0 1, Span.empty⟩, ⟨.identifier "it", Span.empty⟩, ⟨.identifier "v", Span.empty⟩,
    ⟨.conditional 2 3 (some 4), Span.empty⟩, ⟨.lambda [] 5, Span.empty⟩]⟩

/-- What is expected of it: a function from and to the type of `v`. -/
def implicitTarget : Ty :=
  .func [("item", .union [Ty.number, Ty.string])] (.union [Ty.number, Ty.string])

/-- The local that is read below a conversion. -/
def Exec.convertedLocal? : Exec → Option SymbolId
  | .convert _ (.localValue _ id _) => some id
  | _ => none

theorem Exec.eq_of_convertedLocal (h : e.convertedLocal? = some id) :
    ∃ site inner name, e = .convert site (.localValue inner id name) := by
  unfold convertedLocal? at h
  split at h
  · cases h
    exact ⟨_, _, _, rfl⟩
  · cases h

/-- The narrowed `it` is converted from the parameter, which the lambda around it binds. -/
theorem narrowed_parameter_bound : ∃ compiled table' e path site name,
    compile implicitContext guardedTable 6 0 (some implicitTarget) = (.ok compiled, table') ∧
      compiled.executable = some e ∧ e.Encloses path (.localValue site 1 name) ∧
      ∃ a ∈ path, 1 ∈ a.binds := by
  have hp : implicitContext.tree.Proper 6 := by
    apply Tree.Proper.of_slots <;> decide
  have htypes : implicitContext.tree.TypesInPlace 6 := by
    apply Tree.TypesInPlace.of_nodes
    decide
  have hhost : guardedTable.HostScope 0 := SymbolTable.hostScope_spec _
  have hshape : ∃ e ∈ (compile implicitContext guardedTable 6 0
      (some implicitTarget)).1.toOption.bind (·.executable),
      ∃ body ∈ e.children, ∃ branch ∈ body.children, branch.convertedLocal? = some 1 := by
    decide +kernel
  obtain ⟨e, he, body, hbody, branch, hbranch, hlocal⟩ := hshape
  rcases hcompile : compile implicitContext guardedTable 6 0 (some implicitTarget) with
    ⟨_ | compiled, table'⟩
  · rw [hcompile] at he
    cases he
  · rw [hcompile] at he
    obtain ⟨site, inner, name, rfl⟩ := Exec.eq_of_convertedLocal hlocal
    have hinside : e.Encloses _ (.localValue inner 1 name) :=
      .inside hbody (.inside hbranch (.inside (List.mem_singleton_self _) (.here _)))
    exact ⟨compiled, table', e, _, inner, name, rfl, he, hinside,
      (executable_well_scoped hp htypes hhost hcompile he).1 _ inner 1 name hinside⟩

end ScriptTyping
