import ScriptTyping.Proofs.Guards
import ScriptTyping.Proofs.Upkeep

/-!
# The first phase, turn by turn

The first phase can be read as a list of work: a turn takes the first entry off, wires its node and
puts the node's children in front of what is left. A node that several parents share is taken off
once for each of them, and it is wired the first time. The other turns do not come to nothing: what
a node opens for its children is made anew, though no node is wired to it.
-/

namespace ScriptTyping

open Session Check

variable {ctx : Context} {c i j n root : NodeIndex} {σ τ : ScopeId} {kind : NodeKind}
  {table : SymbolTable} {s s' s'' : Session} {work work' : List (NodeIndex × ScopeId)} {d : Nat}

namespace Check

/-- One turn, with what it puts in front of the work that is left. -/
def turn (ctx : Context) (i : NodeIndex) (σ : ScopeId) : Check (List (NodeIndex × ScopeId)) :=
  match ctx.tree.get? i with
  | none => pure []
  | some node => do
    let wires ← childWires ctx i node.kind σ
    if ← assignScopes i ⟨σ, wires.inner⟩ then pure wires.children else pure []

/-- A number of turns, with the work that is left after them. -/
def turns (ctx : Context) :
    Nat → List (NodeIndex × ScopeId) → Check (List (NodeIndex × ScopeId))
  | 0, work => pure work
  | _ + 1, [] => pure []
  | k + 1, (i, σ) :: rest => do
    let children ← turn ctx i σ
    turns ctx k (children ++ rest)

end Check

/-! ## The turns end, and do what the walk does -/

/-- Some turns get the work done and come from `s` to `s'`, whatever other work is behind it. -/
def Clears (ctx : Context) (work : List (NodeIndex × ScopeId)) (s s' : Session) : Prop :=
  ∃ k, ∀ more rest, turns ctx (k + more) (work ++ rest) s = turns ctx more rest s'

namespace Clears

theorem nil (ctx : Context) (s : Session) : Clears ctx [] s s :=
  ⟨0, fun more rest => by rw [Nat.zero_add, List.nil_append]⟩

theorem append (h : Clears ctx work s s') (h' : Clears ctx work' s' s'') :
    Clears ctx (work ++ work') s s'' := by
  obtain ⟨k, hk⟩ := h
  obtain ⟨k', hk'⟩ := h'
  refine ⟨k + k', fun more rest => ?_⟩
  rw [Nat.add_assoc, List.append_assoc, hk, hk']

theorem turn (h : Check.turn ctx i σ s = (work, s')) (h' : Clears ctx work s' s'') :
    Clears ctx [(i, σ)] s s'' := by
  obtain ⟨k, hk⟩ := h'
  refine ⟨k + 1, fun more rest => ?_⟩
  rw [← hk, Nat.add_right_comm]
  change (Check.turn ctx i σ >>= fun children => turns ctx (k + more) (children ++ rest)) s = _
  change turns ctx (k + more) ((Check.turn ctx i σ s).1 ++ rest) (Check.turn ctx i σ s).2 = _
  rw [h]

theorem forM {visit : NodeIndex × ScopeId → Check Unit}
    (h : ∀ w ∈ work, ∀ s, Clears ctx [w] s (visit w s).2) (s : Session) :
    Clears ctx work s (work.forM visit s).2 := by
  induction work generalizing s with
  | nil => exact nil ctx s
  | cons w rest ih =>
    exact (h w List.mem_cons_self s).append
      (ih (fun v hv => h v (List.mem_cons_of_mem w hv)) (visit w s).2)

end Clears

theorem turn_missing (h : ctx.tree.get? i = none) (σ : ScopeId) : turn ctx i σ = pure [] := by
  unfold turn
  rw [h]

theorem turn_present {node : Node} (h : ctx.tree.get? i = some node) (σ : ScopeId) :
    turn ctx i σ = (do
      let wires ← childWires ctx i node.kind σ
      if ← assignScopes i ⟨σ, wires.inner⟩ then pure wires.children else pure []) := by
  unfold turn
  rw [h]

theorem wireWithin_clears (hi : ctx.tree.Bounded d i) (σ : ScopeId) (s : Session) :
    Clears ctx [(i, σ)] s (wireWithin ctx d i σ s).2 := by
  induction d generalizing i σ s with
  | zero =>
    rw [Tree.Bounded] at hi
    exact .turn (congrFun (turn_missing hi σ) s) (.nil ctx s)
  | succ d ih =>
    unfold wireWithin
    cases hnode : ctx.tree.get? i with
    | none => exact .turn (congrFun (turn_missing hnode σ) s) (.nil ctx s)
    | some node =>
      have hturn := congrFun (turn_present hnode σ) s
      have hchildren : (childWires ctx i node.kind σ s).1.children.map (·.1) = node.kind.children :=
        (childWires_nodes i node.kind σ s).2
      rcases hwires : childWires ctx i node.kind σ s with ⟨wires, s1⟩
      rcases hassigned : assignScopes i ⟨σ, wires.inner⟩ s1 with ⟨assigned, s2⟩
      simp only [bind, StateT.bind, hwires, hassigned] at hturn hchildren ⊢
      cases assigned with
      | false => exact .turn hturn (.nil ctx s2)
      | true =>
        refine .turn hturn (.forM (fun w hw s => ?_) s2)
        have hc : w.1 ∈ node.kind.children := hchildren ▸ List.mem_map_of_mem hw
        exact ih (hi w.1 ((Tree.child_of_kind (Tree.kind_of_get hnode)).mpr hc)) w.2 s

/-! ## What the first turn of a node leaves behind -/

namespace Session

/-- The narrowed symbols of the condition are remembered, or it cannot have any. -/
def Known (t : Tree) (s : Session) (c : NodeIndex) : Prop :=
  (∃ ids, s.truths.get? c = some ids) ∨
    t.guardName? c = none ∧ ∀ l r, t.kind? c ≠ some (.conjunction l r)

/-- What a turn of the node `i` need not do again. -/
def Prepared (ctx : Context) (i : NodeIndex) (s : Session) : NodeKind → Prop
  | .conditional condition _ _ => s.Known ctx.tree condition
  | .conjunction .. => s.Known ctx.tree i
  | .declaration .. => s.declared.contains i = true
  | _ => True

/-- All nodes that are wired are prepared. -/
def Ready (ctx : Context) (s : Session) : Prop :=
  ∀ i node, ctx.tree.get? i = some node → s.nodes.get? i ≠ some .unresolved →
    s.Prepared ctx i node.kind

theorem known_keptByWiring (t : Tree) (c : NodeIndex) : KeptByWiring fun s => s.Known t c where
  symbol _ h := h
  truths {s c' ids} h := by
    refine h.imp_left fun ⟨known, hknown⟩ => ?_
    simp only [OrderedMap.get?_insert]
    split
    · exact ⟨ids, rfl⟩
    · exact ⟨known, hknown⟩
  declared h := h
  scope h := h
  conjunction h := h
  wired _ h := h

theorem declared_keptByWiring (i : NodeIndex) :
    KeptByWiring fun s => s.declared.contains i = true where
  symbol _ h := h
  truths h := h
  declared {s d id} h := by
    simp only [OrderedMap.contains, OrderedMap.get?_insert]
    split
    · rfl
    · exact h
  scope h := h
  conjunction h := h
  wired _ h := h

theorem prepared_keptByWiring (ctx : Context) (i : NodeIndex) (kind : NodeKind) :
    KeptByWiring fun s => s.Prepared ctx i kind := by
  have htrivial : KeptByWiring fun _ => True :=
    ⟨⟨fun _ _ => trivial, fun _ => trivial, fun _ => trivial⟩, fun _ => trivial, fun _ => trivial,
      fun _ _ => trivial⟩
  cases kind with
  | conditional condition thenBranch elseBranch => exact known_keptByWiring ctx.tree condition
  | conjunction left right => exact known_keptByWiring ctx.tree i
  | declaration name isConst ascription initializer => exact declared_keptByWiring i
  | _ => exact htrivial

theorem ready_start (ctx : Context) (table : SymbolTable) : (start ctx table).Ready ctx :=
  fun _ _ hnode hassigned =>
    absurd (NodeStates.get?_initial (Tree.lt_size_of_get hnode)) hassigned

end Session

theorem truthsWithin_makesKnown (depth : Nat) (c : NodeIndex) (σ : ScopeId) (s : Session) :
    (truthsWithin ctx (depth + 1) c σ).After s fun _ s' => s'.Known ctx.tree c := by
  unfold truthsWithin
  simp only [after_bind, after_get]
  split
  · rename_i ids hids
    exact Or.inl ⟨ids, hids⟩
  · split
    · rename_i operand target hk
      split
      · rename_i hname
        exact Or.inr ⟨by simp [Tree.guardName?, hk, hname], by simp [hk]⟩
      · exact Or.inl ⟨_, OrderedMap.get?_insert_self _ c _⟩
    · exact Or.inl ⟨_, OrderedMap.get?_insert_self _ c _⟩
    · rename_i htest hboth
      refine Or.inr ⟨?_, hboth⟩
      unfold Tree.guardName?
      split
      · rename_i operand target hk
        exact absurd hk (htest operand target)
      · rfl

theorem truthsWithin_known (h : s.Known ctx.tree c) (depth : Nat) (σ : ScopeId) :
    (truthsWithin ctx (depth + 1) c σ).After s fun ids s' =>
      ids = (s.truths.get? c).getD [] ∧ s' = s := by
  unfold truthsWithin
  simp only [after_bind, after_get]
  cases hids : s.truths.get? c with
  | some ids => exact ⟨rfl, rfl⟩
  | none =>
    obtain ⟨hname, hboth⟩ := h.resolve_left (by simp [hids])
    dsimp only
    split
    · rename_i operand target hk
      simp only [Tree.guardName?, hk] at hname
      rw [hname]
      exact ⟨rfl, rfl⟩
    · rename_i left right hk
      exact absurd hk (hboth left right)
    · exact ⟨rfl, rfl⟩

theorem truths_of_present {node : Node} (h : ctx.tree.get? i = some node) (c : NodeIndex)
    (σ : ScopeId) : ∃ depth, truths ctx c σ = truthsWithin ctx (depth + 1) c σ := by
  have hpos : 0 < ctx.tree.size := Nat.zero_lt_of_lt (Tree.lt_size_of_get h)
  refine ⟨ctx.tree.size - 1, ?_⟩
  rw [Nat.sub_add_cancel hpos]
  rfl

theorem childWires_prepares {node : Node} (h : ctx.tree.get? i = some node) (σ : ScopeId)
    (s : Session) :
    (childWires ctx i node.kind σ).After s fun _ s' => s'.Prepared ctx i node.kind := by
  cases hkind : node.kind with
  | conditional condition thenBranch elseBranch =>
    obtain ⟨depth, htruths⟩ := truths_of_present h condition σ
    simp only [childWires, after_bind, after_pure, htruths]
    refine (truthsWithin_makesKnown depth condition σ s).mono ?_
    intro ids s1 hknown
    exact ((known_keptByWiring ctx.tree condition).narrowedScope σ ids s1 hknown).2
  | conjunction left right =>
    obtain ⟨depth, htruths⟩ := truths_of_present h i σ
    simp only [childWires, after_bind, after_get, after_pure, htruths]
    exact truthsWithin_makesKnown depth i σ s
  | declaration name isConst ascription initializer =>
    simp only [childWires, after_bind, after_get]
    split
    · have hadded := OrderedMap.get?_insert_self s.declared i s.table.symbols.size
      exact congrArg Option.isSome hadded
    · rename_i hdeclared
      simpa [Prepared] using hdeclared
  | _ => trivial

theorem assignScopes_of_ne (hij : i ≠ j) (sc : NodeScopes) (s : Session) :
    (assignScopes i sc).After s fun _ s' => s'.nodes.get? j = s.nodes.get? j := by
  simp only [assignScopes, after_modifyGet, NodeStates.assignScopes?]
  split
  · rename_i nodes hassigned
    split at hassigned
    · cases hassigned
      exact NodeStates.get?_set_of_ne _ hij _
    · cases hassigned
  · rfl

theorem turn_ready (h : s.Ready ctx) (i : NodeIndex) (σ : ScopeId) :
    (turn ctx i σ).After s fun _ s' => s'.Ready ctx := by
  cases hnode : ctx.tree.get? i with
  | none =>
    rw [turn_missing hnode]
    exact h
  | some node =>
    have hkept : (childWires ctx i node.kind σ).After s fun _ s1 =>
        ∀ j kind, s.Prepared ctx j kind → s1.Prepared ctx j kind := fun j kind hj =>
      ((prepared_keptByWiring ctx j kind).childWires i node.kind σ s hj).2
    have hwires : (childWires ctx i node.kind σ).After s fun wires s1 =>
        (assignScopes i ⟨σ, wires.inner⟩).After s1 fun _ s2 => s2.Ready ctx := by
      refine (((childWires_nodes i node.kind σ s).and
        (childWires_prepares hnode σ s)).and hkept).mono ?_
      rintro wires s1 ⟨⟨⟨hnodes, -⟩, hself⟩, hkept⟩ j other hother hassigned
      refine ((prepared_keptByWiring ctx j other.kind).assignScopes i _ s1 ?_).2
      by_cases hij : i = j
      · subst hij
        rw [hnode] at hother
        cases hother
        exact hself
      · refine hkept j other.kind (h j other hother ?_)
        have hsame := assignScopes_of_ne hij ⟨σ, wires.inner⟩ s1
        rw [← hnodes]
        exact fun hunresolved => hassigned (hsame.trans hunresolved)
    rw [turn_present hnode]
    simp only [after_bind]
    refine hwires.mono fun wires s1 h1 => h1.mono fun assigned s2 h2 => ?_
    cases assigned with
    | false => exact h2
    | true => exact h2

theorem turns_ready (h : s.Ready ctx) (k : Nat) (work : List (NodeIndex × ScopeId)) :
    (turns ctx k work).After s fun _ s' => s'.Ready ctx := by
  induction k generalizing work s with
  | zero => exact h
  | succ k ih =>
    cases work with
    | nil => exact h
    | cons w rest =>
      exact (turn_ready h w.1 w.2).mono fun children s1 h1 => ih h1 (children ++ rest)

/-! ## What the other turns do -/

/-- A scope is opened for the children of a node of the kind, whether it is wired already or not. -/
def Session.Reopens (s : Session) : NodeKind → Prop
  | .conditional condition _ _ => (s.truths.get? condition).getD [] ≠ []
  | .lambda .. => True
  | .block .. => True
  | _ => False

/-- How many symbols are made for the scope that is opened. Those of a condition are remembered. -/
def Context.openedSymbols (ctx : Context) : NodeKind → Nat
  | .lambda params _ => (parameterNames ctx params).length
  | .block statements => (statements.filter ctx.tree.isDeclaration).length
  | _ => 0

/-- The declarations that a node of the kind declares for others to see. -/
def Context.openedDeclarations (ctx : Context) : NodeKind → List NodeIndex
  | .block statements => statements.filter ctx.tree.isDeclaration
  | _ => []

/-- What a turn for a node that was wired already makes of `s`: there is one scope more if the node
opens one, with new symbols, which the declarations in it take for theirs. -/
structure Session.Remade (ctx : Context) (s s' : Session) (kind : NodeKind) : Prop where
  rest : s' = { s with table := s'.table, declared := s'.declared }
  idle : ¬ s.Reopens kind → s' = s
  scopes : s.Reopens kind → s'.table.scopes.size = s.table.scopes.size + 1
  symbols : s'.table.symbols.size = s.table.symbols.size + ctx.openedSymbols kind
  redirected : ∀ n ∈ ctx.openedDeclarations kind,
    ∃ id, s'.declared.get? n = some id ∧ s.table.symbols.size ≤ id
  others : ∀ n, n ∉ ctx.openedDeclarations kind → s'.declared.get? n = s.declared.get? n

theorem Session.Remade.refl (ctx : Context) (s : Session) (hidle : ¬ s.Reopens kind)
    (hsymbols : ctx.openedSymbols kind = 0) (hdeclarations : ctx.openedDeclarations kind = []) :
    s.Remade ctx s kind where
  rest := rfl
  idle _ := rfl
  scopes h := absurd h hidle
  symbols := by rw [hsymbols, Nat.add_zero]
  redirected := by simp [hdeclarations]
  others _ _ := rfl

theorem addParameters_remakes (l : NodeIndex) (names : List String) (k : Nat) (s : Session) :
    (addParameters l names k).After s fun _ s' => s' = { s with table := s'.table } ∧
      s'.table.scopes = s.table.scopes ∧
      s'.table.symbols.size = s.table.symbols.size + names.length := by
  induction names generalizing k s with
  | nil => exact ⟨rfl, rfl, rfl⟩
  | cons name rest ih =>
    simp only [addParameters, after_bind, addSymbol, after_modifyGet, after_pure]
    refine (ih (k + 1) _).mono ?_
    rintro ids s' ⟨hsame, hscopes, hsize⟩
    refine ⟨hsame, hscopes, ?_⟩
    rw [hsize, SymbolTable.addSymbol, Array.size_push, List.length_cons]
    omega

theorem declareStatements_remakes (statements : List NodeIndex) (s : Session) :
    (declareStatements ctx statements).After s fun _ s' =>
      s' = { s with table := s'.table, declared := s'.declared } ∧
      s'.table.scopes = s.table.scopes ∧
      s'.table.symbols.size =
        s.table.symbols.size + (statements.filter ctx.tree.isDeclaration).length ∧
      (∀ n ∈ statements.filter ctx.tree.isDeclaration,
        ∃ id, s'.declared.get? n = some id ∧ s.table.symbols.size ≤ id) ∧
      ∀ n, n ∉ statements.filter ctx.tree.isDeclaration →
        s'.declared.get? n = s.declared.get? n := by
  induction statements generalizing s with
  | nil => exact ⟨rfl, rfl, rfl, by simp, fun _ _ => rfl⟩
  | cons i rest ih =>
    unfold declareStatements
    split
    · rename_i name isConst ascription initializer hk
      have hd : ctx.tree.isDeclaration i = true := Tree.isDeclaration_iff.mpr ⟨_, _, _, _, hk⟩
      rw [List.filter_cons_of_pos hd]
      simp only [after_bind, declare, addSymbol, after_modifyGet, after_modify, after_pure]
      refine (ih _).mono ?_
      rintro ids s' ⟨hsame, hscopes, hsize, hredirected, hothers⟩
      simp only [SymbolTable.addSymbol, Array.size_push] at hsize hredirected hothers
      refine ⟨hsame, hscopes, ?_, ?_, ?_⟩
      · rw [hsize, List.length_cons]
        omega
      · intro n hn
        by_cases hrest : n ∈ rest.filter ctx.tree.isDeclaration
        · obtain ⟨id, hid, hle⟩ := hredirected n hrest
          exact ⟨id, hid, by omega⟩
        · obtain rfl : n = i := (List.mem_cons.mp hn).resolve_right hrest
          exact ⟨s.table.symbols.size, by rw [hothers n hrest, OrderedMap.get?_insert_self], le_rfl⟩
      · intro n hn
        obtain ⟨hne, hrest⟩ : n ≠ i ∧ n ∉ rest.filter ctx.tree.isDeclaration := by
          simpa only [List.mem_cons, not_or] using hn
        rw [hothers n hrest, OrderedMap.get?_insert_of_ne _ (Ne.symm hne)]
    · rename_i hother
      have hd : ¬ ctx.tree.isDeclaration i = true := fun hd => by
        obtain ⟨name, isConst, ascription, initializer, hk⟩ := Tree.isDeclaration_iff.mp hd
        exact hother name isConst ascription initializer hk
      rw [List.filter_cons_of_neg hd]
      exact ih s

theorem Session.Remade.addScope {s1 : Session} (hopens : s.Reopens kind)
    (hsame : s1 = { s with table := s1.table, declared := s1.declared })
    (hscopes : s1.table.scopes = s.table.scopes)
    (hsymbols : s1.table.symbols.size = s.table.symbols.size + ctx.openedSymbols kind)
    (hredirected : ∀ n ∈ ctx.openedDeclarations kind,
      ∃ id, s1.declared.get? n = some id ∧ s.table.symbols.size ≤ id)
    (hothers : ∀ n, n ∉ ctx.openedDeclarations kind → s1.declared.get? n = s.declared.get? n)
    (σ : ScopeId) (ids : List SymbolId) :
    s.Remade ctx { s1 with table := (s1.table.addScope (some σ) ids).2 } kind where
  rest := by rw [hsame]
  idle h := absurd hopens h
  scopes _ := by simp [SymbolTable.addScope, hscopes]
  symbols := hsymbols
  redirected := hredirected
  others := hothers

theorem childWires_remakes {node : Node} (h : ctx.tree.get? i = some node)
    (hprepared : s.Prepared ctx i node.kind) (σ : ScopeId) :
    (childWires ctx i node.kind σ).After s fun _ s' => s.Remade ctx s' node.kind := by
  cases hkind : node.kind with
  | conditional condition thenBranch elseBranch =>
    rw [hkind] at hprepared
    obtain ⟨depth, htruths⟩ := truths_of_present h condition σ
    simp only [childWires, after_bind, after_pure, htruths]
    refine (truthsWithin_known hprepared depth σ).mono ?_
    rintro ids s1 ⟨rfl, rfl⟩
    unfold narrowedScope
    split
    · rename_i hempty
      exact .refl ctx s1 (fun hopens => hopens (List.isEmpty_iff.mp hempty)) rfl rfl
    · rename_i hids
      have hopens : s1.Reopens (.conditional condition thenBranch elseBranch) :=
        mt List.isEmpty_iff.mpr hids
      exact .addScope hopens rfl rfl rfl (by simp [Context.openedDeclarations]) (fun _ _ => rfl) σ _
  | conjunction left right =>
    rw [hkind] at hprepared
    obtain ⟨depth, htruths⟩ := truths_of_present h i σ
    simp only [childWires, after_bind, after_get, after_pure, htruths]
    refine (truthsWithin_known hprepared depth σ).mono ?_
    rintro ids s1 ⟨-, rfl⟩
    exact .refl ctx s1 id rfl rfl
  | lambda params body =>
    simp only [childWires, after_bind, addScope, after_modifyGet, after_pure]
    refine (addParameters_remakes i (parameterNames ctx params) 0 s).mono ?_
    rintro ids s1 ⟨hsame, hscopes, hsize⟩
    have hdeclared : s1.declared = s.declared := by rw [hsame]
    have hopens : s.Reopens (.lambda params body) := trivial
    exact .addScope hopens (by rw [hdeclared]; exact hsame) hscopes hsize
      (by simp [Context.openedDeclarations]) (fun _ _ => by rw [hdeclared]) σ ids
  | block statements =>
    simp only [childWires, after_bind, addScope, after_modifyGet, after_pure]
    refine (declareStatements_remakes statements s).mono ?_
    rintro ids s1 ⟨hsame, hscopes, hsize, hredirected, hothers⟩
    have hopens : s.Reopens (.block statements) := trivial
    exact .addScope hopens hsame hscopes hsize hredirected hothers σ ids
  | declaration name isConst ascription initializer =>
    rw [hkind] at hprepared
    have hdeclared : s.declared.contains i = true := hprepared
    simp only [childWires, after_bind, after_get, hdeclared, Bool.not_true]
    exact .refl ctx s id rfl rfl
  | _ => exact .refl ctx s id rfl rfl

/-- A turn for a node that is wired already leaves no work and remakes what the node opens. -/
theorem turn_remakes {node : Node} (h : ctx.tree.get? i = some node)
    (hprepared : s.Prepared ctx i node.kind) (hwired : s.nodes.get? i ≠ some .unresolved)
    (σ : ScopeId) :
    (turn ctx i σ).After s fun children s' => children = [] ∧ s.Remade ctx s' node.kind := by
  rw [turn_present h]
  simp only [after_bind]
  refine ((childWires_nodes i node.kind σ s).and (childWires_remakes h hprepared σ)).mono ?_
  rintro wires s1 ⟨⟨hnodes, -⟩, hremade⟩
  have hrefused : s1.nodes.assignScopes? i ⟨σ, wires.inner⟩ = none := by
    rw [hnodes]
    unfold NodeStates.assignScopes?
    split
    · rename_i hunresolved
      exact absurd hunresolved hwired
    · rfl
  simp only [assignScopes, after_modifyGet, hrefused]
  exact ⟨rfl, hremade⟩

theorem Session.Remade.eq_iff (h : s.Remade ctx s' kind) : s' = s ↔ ¬ s.Reopens kind := by
  refine ⟨fun heq hopens => ?_, h.idle⟩
  have hscopes := h.scopes hopens
  rw [heq] at hscopes
  omega

/-- The turns do what the walk does. A turn that finds its node wired already changes nothing if and
only if no scope is opened for the node's children. Otherwise the scope is opened once more, with
new symbols, and the declarations in a block lose the symbols that the block sees. -/
theorem wired_turn_idle_iff (hacyclic : ctx.tree.AcyclicBelow root) :
    (∃ k, turns ctx k [(root, σ)] (.start ctx table) =
      ([], (wire ctx root σ (.start ctx table)).2)) ∧
    ∀ k i τ rest s node, turns ctx k [(root, σ)] (.start ctx table) = ((i, τ) :: rest, s) →
      ctx.tree.get? i = some node → s.nodes.get? i ≠ some .unresolved →
      (turn ctx i τ).After s fun children s' =>
        children = [] ∧ (s' = s ↔ ¬ s.Reopens node.kind) ∧ s.Remade ctx s' node.kind := by
  constructor
  · obtain ⟨k, hk⟩ := wireWithin_clears hacyclic.bounded_size σ (.start ctx table)
    exact ⟨k, hk 0 []⟩
  · intro k i τ rest s node hturns hnode hwired
    have hready := turns_ready (ready_start ctx table) k [(root, σ)]
    rw [After, hturns] at hready
    refine (turn_remakes hnode (hready i node hnode hwired) hwired τ).mono ?_
    rintro children s' ⟨hchildren, hremade⟩
    exact ⟨hchildren, hremade.eq_iff, hremade⟩

/-- `[{ const x = true; x }, { const x = true; x }]`, where the two blocks are one node. -/
def twinBlocks : Context where
  env := .initial
  options := {}
  tree := ⟨#[⟨.literal (.value (.boolean true)), Span.empty⟩,
    ⟨.declaration "x" true none 0, Span.empty⟩, ⟨.identifier "x", Span.empty⟩,
    ⟨.block [1, 2], Span.empty⟩, ⟨.collection [3, 3], Span.empty⟩]⟩

/-- The table of a host that gives nothing. -/
def twinTable : SymbolTable := (SymbolTable.hostScope {} []).2

theorem twinBlocks_acyclic : twinBlocks.tree.Acyclic := Tree.Acyclic.of_earlier (by decide)

/-- After five turns the block is next for the second time; there are two scopes. -/
theorem twinBlocks_turns : ∃ s,
    turns twinBlocks 5 [(4, 0)] (.start twinBlocks twinTable) = ([(3, 0)], s) ∧
    s.nodes.get? 3 ≠ some .unresolved ∧ s.table.scopes.size = 2 ∧
    (turn twinBlocks 3 0 s).2.table.scopes.size = 3 := by
  have hwork : (turns twinBlocks 5 [(4, 0)] (.start twinBlocks twinTable)).1 = [(3, 0)] := by
    decide +kernel
  rw [← hwork]
  refine ⟨_, Prod.mk.eta.symm, ?_, by decide +kernel, by decide +kernel⟩
  intro hunresolved
  have hscopes : ((turns twinBlocks 5 [(4, 0)]
      (.start twinBlocks twinTable)).2.nodes.scopes? 3).isSome = true := by decide +kernel
  simp [NodeStates.scopes?, hunresolved, NodeState.scopes?] at hscopes

/-- The second turn for the block makes a second symbol `x`, and gives it to the declaration. -/
theorem twin_block_opened_again : ∃ s s',
    turns twinBlocks 5 [(4, 0)] (.start twinBlocks twinTable) = ([(3, 0)], s) ∧
    turn twinBlocks 3 0 s = ([], s') ∧ s' ≠ s ∧ s'.table.scopes.size = s.table.scopes.size + 1 ∧
    ∃ id, s'.declared.get? 1 = some id ∧ s.table.symbols.size ≤ id := by
  obtain ⟨s, hturns, hwired, -⟩ := twinBlocks_turns
  obtain ⟨hchildren, hidle, hremade⟩ :=
    (wired_turn_idle_iff (twinBlocks_acyclic.below 4)).2 5 3 0 [] s _ hturns rfl hwired
  refine ⟨s, _, hturns, Prod.ext hchildren rfl, fun heq => hidle.mp heq trivial,
    hremade.scopes trivial, hremade.redirected 1 ?_⟩
  decide

/-- A turn that finds its node wired already can change the tables. -/
theorem wired_turn_can_change : ¬ ∀ (ctx : Context) (table : SymbolTable) (root : NodeIndex)
    (σ : ScopeId) (k : Nat) (i : NodeIndex) (τ : ScopeId) (rest : List (NodeIndex × ScopeId))
    (s : Session) (node : Node), ctx.tree.Acyclic →
    turns ctx k [(root, σ)] (.start ctx table) = ((i, τ) :: rest, s) →
    ctx.tree.get? i = some node → s.nodes.get? i ≠ some .unresolved → turn ctx i τ s = ([], s) := by
  intro hall
  obtain ⟨s, hturns, hwired, hbefore, hafter⟩ := twinBlocks_turns
  have hidle := hall twinBlocks twinTable 4 0 5 3 0 [] s _ twinBlocks_acyclic hturns rfl hwired
  rw [hidle, hbefore] at hafter
  cases hafter

end ScriptTyping
