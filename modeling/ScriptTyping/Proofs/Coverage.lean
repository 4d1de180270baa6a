import ScriptTyping.Proofs.Descendants
import ScriptTyping.Proofs.Onward

/-!
# Which nodes a check reaches

The first phase goes through the tree depth first and comes to a shared node only once; the second
resolves what the first has wired. In the end the nodes below the root are typed, and the others are
as they were.
-/

namespace ScriptTyping

open Session Check

variable {ctx : Context} {c i n root : NodeIndex} {σ : ScopeId} {kind : NodeKind}
  {s s' s'' : Session} {expected : Option Ty} {table : SymbolTable} {t : Tree}

/-! ## Opening scopes changes no node -/

theorem narrowedScope_nodes (σ : ScopeId) (ids : List SymbolId) (s : Session) :
    (narrowedScope σ ids).After s fun _ s' => s'.nodes = s.nodes := by
  unfold narrowedScope
  split
  · exact rfl
  · exact rfl

theorem narrowName_nodes (name : String) (g : NodeIndex) (σ : ScopeId) (s : Session) :
    (narrowName name g σ).After s fun _ s' => s'.nodes = s.nodes := by
  unfold narrowName
  simp only [after_bind, after_get]
  split
  · exact rfl
  · split
    · exact rfl
    · exact rfl

theorem truthsWithin_nodes (depth : Nat) (c : NodeIndex) (σ : ScopeId) (s : Session) :
    (truthsWithin ctx depth c σ).After s fun _ s' => s'.nodes = s.nodes := by
  induction depth generalizing c σ s with
  | zero => exact rfl
  | succ depth ih =>
    unfold truthsWithin
    simp only [after_bind, after_get]
    split
    · exact rfl
    · split
      · split
        · exact rfl
        · exact narrowName_nodes _ _ _ s
      · rename_i left right _
        simp only [after_bind, rememberConjunction, rememberTruths, after_modify, after_pure]
        refine (ih left σ s).mono ?_
        intro ids s1 h1
        refine (narrowedScope_nodes σ ids s1).mono ?_
        intro τ s2 h2
        refine (ih right τ _).mono ?_
        intro ids' s3 h3
        exact h3.trans (h2.trans h1)
      · exact rfl

theorem addParameters_nodes (l : NodeIndex) (names : List String) (k : Nat) (s : Session) :
    (addParameters l names k).After s fun _ s' => s'.nodes = s.nodes := by
  induction names generalizing k s with
  | nil => exact rfl
  | cons name rest ih => exact ih (k + 1) _

theorem declareStatements_nodes (statements : List NodeIndex) (s : Session) :
    (declareStatements ctx statements).After s fun _ s' => s'.nodes = s.nodes := by
  induction statements generalizing s with
  | nil => exact rfl
  | cons i rest ih =>
    unfold declareStatements
    split
    · exact ih _
    · exact ih s

theorem childWires_nodes (i : NodeIndex) (kind : NodeKind) (σ : ScopeId) (s : Session) :
    (childWires ctx i kind σ).After s fun w s' =>
      s'.nodes = s.nodes ∧ w.children.map (·.1) = kind.children := by
  have hsame : ∀ (cs : List NodeIndex) (τ : ScopeId), (cs.map (·, τ)).map (·.1) = cs := by
    simp [Function.comp_def]
  unfold childWires
  split
  · rename_i condition thenBranch elseBranch
    simp only [after_bind, after_pure]
    refine (truthsWithin_nodes _ condition σ s).mono ?_
    intro ids s1 h1
    refine (narrowedScope_nodes σ ids s1).mono ?_
    intro τ s2 h2
    exact ⟨h2.trans h1, by simp [NodeKind.children, Function.comp_def]⟩
  · simp only [after_bind, after_get, after_pure]
    refine (truthsWithin_nodes _ i σ s).mono ?_
    intro ids s1 h1
    exact ⟨h1, rfl⟩
  · rename_i params body
    simp only [after_bind, addScope, after_modifyGet, after_pure]
    refine (addParameters_nodes i (parameterNames ctx params) 0 s).mono ?_
    intro ids s1 h1
    exact ⟨h1, by simp [NodeKind.children, Function.comp_def]⟩
  · rename_i statements
    rw [after_bind]
    refine (declareStatements_nodes statements s).mono ?_
    intro ids s1 h1
    exact ⟨h1, hsame statements _⟩
  · simp only [after_bind, after_get]
    split
    · exact ⟨rfl, hsame _ σ⟩
    · exact ⟨rfl, hsame _ σ⟩
  · exact ⟨rfl, hsame _ σ⟩

/-! ## Wiring a tree with shared nodes -/

namespace NodeStates

variable {m m' m'' : NodeStates}

/-- The node is wired, if it is there. -/
def Done (t : Tree) (m : NodeStates) (n : NodeIndex) : Prop :=
  ∀ node, t.get? n = some node → ∃ sc, m.get? n = some (.wired sc)

/-- As in the first phase: what is there is unresolved or wired. -/
def Early (t : Tree) (m : NodeStates) : Prop :=
  ∀ n node, t.get? n = some node → m.get? n = some .unresolved ∨ m.Done t n

theorem get?_initial {count : Nat} (hn : n < count) :
    (initial count).get? n = some .unresolved := by
  rw [initial, get?, Array.getElem?_replicate, if_pos hn]

theorem done_set (hunresolved : m.get? i = some .unresolved) (sc : NodeScopes) :
    (m.set i (.wired sc)).Done t i :=
  fun _ _ => ⟨sc, get?_set_self hunresolved _⟩

theorem Early.set (hm : m.Early t) (hunresolved : m.get? i = some .unresolved) (sc : NodeScopes) :
    (m.set i (.wired sc)).Early t := by
  intro n node hnode
  by_cases hin : i = n
  · subst hin
    exact Or.inr (done_set hunresolved sc)
  · unfold Done
    rw [get?_set_of_ne _ hin]
    exact hm n node hnode

/-- Nodes below `i` have become wired, each with all of its children. -/
structure Spreads (t : Tree) (i : NodeIndex) (m m' : NodeStates) : Prop where
  change : ∀ n, m'.get? n = m.get? n ∨
    m.get? n = some .unresolved ∧ t.Spans i n ∧ ∃ sc, m'.get? n = some (.wired sc)
  closed : ∀ n, m'.get? n ≠ m.get? n → ∀ c, t.Child n c → m'.Done t c

namespace Spreads

theorem refl (t : Tree) (i : NodeIndex) (m : NodeStates) : Spreads t i m m :=
  ⟨fun _ => Or.inl rfl, fun _ hne => absurd rfl hne⟩

theorem done (h : Spreads t i m m') (hn : m.Done t n) : m'.Done t n := by
  intro node hnode
  obtain ⟨sc, hwired⟩ := hn node hnode
  rcases h.change n with hsame | ⟨hunresolved, -⟩
  · exact ⟨sc, hsame.trans hwired⟩
  · simp [hwired] at hunresolved

theorem early (h : Spreads t i m m') (hm : m.Early t) : m'.Early t := by
  intro n node hnode
  rcases h.change n with hsame | ⟨-, -, hwired⟩
  · rw [hsame]
    exact (hm n node hnode).imp_right h.done
  · exact Or.inr fun _ _ => hwired

theorem trans (h : Spreads t i m m') (h' : Spreads t i m' m'') : Spreads t i m m'' := by
  refine ⟨fun n => ?_, fun n hne c hc => ?_⟩
  · rcases h'.change n with hsame | ⟨hunresolved, hin, hwired⟩
    · rw [hsame]
      exact h.change n
    · rcases h.change n with hsame | ⟨-, -, sc, hwired'⟩
      · exact Or.inr ⟨hsame ▸ hunresolved, hin, hwired⟩
      · simp [hwired'] at hunresolved
  · by_cases hsame : m'.get? n = m.get? n
    · exact h'.closed n (by rwa [hsame]) c hc
    · exact h'.done (h.closed n hsame c hc)

theorem lift (h : Spreads t c m m') (hc : t.Reaches i c) : Spreads t i m m' := by
  refine ⟨fun n => ?_, h.closed⟩
  rcases h.change n with hsame | ⟨hunresolved, ⟨hcn, hpresent⟩, hwired⟩
  · exact Or.inl hsame
  · exact Or.inr ⟨hunresolved, ⟨hc.trans hcn, hpresent⟩, hwired⟩

theorem of_children {node : Node} {sc : NodeScopes} (hnode : t.get? i = some node)
    (hunresolved : m.get? i = some .unresolved)
    (h : Spreads t i (m.set i (.wired sc)) m') (hchildren : ∀ c, t.Child i c → m'.Done t c) :
    Spreads t i m m' := by
  have hself := get?_set_self hunresolved (.wired sc)
  have hother : ∀ {n}, i ≠ n → (m.set i (.wired sc)).get? n = m.get? n := fun hne =>
    get?_set_of_ne _ hne _
  refine ⟨fun n => ?_, fun n hne c hc => ?_⟩
  · by_cases hin : i = n
    · subst hin
      rcases h.change i with hsame | ⟨hcontra, -⟩
      · exact Or.inr ⟨hunresolved, ⟨.refl t i, node, hnode⟩, sc, hsame.trans hself⟩
      · simp [hself] at hcontra
    · have hchange := h.change n
      rwa [hother hin] at hchange
  · by_cases hin : i = n
    · subst hin
      exact hchildren c hc
    · refine h.closed n ?_ c hc
      rwa [hother hin]

end Spreads

end NodeStates

open NodeStates

theorem forM_spreads {visit : NodeIndex × ScopeId → Check Unit} {wires : List (NodeIndex × ScopeId)}
    (hvisit : ∀ w ∈ wires, ∀ s : Session, s.nodes.Early t →
      (visit w).After s fun _ s' => Spreads t i s.nodes s'.nodes ∧ s'.nodes.Done t w.1)
    (hs : s.nodes.Early t) :
    (wires.forM visit).After s fun _ s' =>
      Spreads t i s.nodes s'.nodes ∧ ∀ w ∈ wires, s'.nodes.Done t w.1 := by
  induction wires generalizing s with
  | nil => exact ⟨.refl t i s.nodes, by simp⟩
  | cons w rest ih =>
    rw [after_forM_cons]
    refine (hvisit w (by simp) s hs).mono ?_
    rintro - s1 ⟨hspreads, hdone⟩
    refine (ih (fun v hv => hvisit v (by simp [hv])) (hspreads.early hs)).mono ?_
    rintro - s2 ⟨hspreads', hrest⟩
    refine ⟨hspreads.trans hspreads', fun v hv => ?_⟩
    rcases List.mem_cons.mp hv with rfl | hv
    · exact hspreads'.done hdone
    · exact hrest v hv

theorem wireWithin_spreads {depth : Nat} (hi : ctx.tree.Bounded depth i)
    (hs : s.nodes.Early ctx.tree) :
    (wireWithin ctx depth i σ).After s fun _ s' =>
      Spreads ctx.tree i s.nodes s'.nodes ∧ s'.nodes.Done ctx.tree i := by
  induction depth generalizing i σ s with
  | zero =>
    rw [Tree.Bounded] at hi
    exact ⟨.refl _ i s.nodes, fun node hnode => by simp [hi] at hnode⟩
  | succ depth ih =>
    unfold wireWithin
    cases hnode : ctx.tree.get? i with
    | none => exact ⟨.refl _ i s.nodes, fun node hnode' => by simp [hnode] at hnode'⟩
    | some node =>
      have hchild : ∀ {c}, ctx.tree.Child i c ↔ c ∈ node.kind.children :=
        Tree.child_of_kind (Tree.kind_of_get hnode)
      simp only [after_bind]
      refine (childWires_nodes i node.kind σ s).mono ?_
      rintro w s1 ⟨hnodes, hchildren⟩
      rw [← hnodes] at hs ⊢
      simp only [assignScopes, after_modifyGet, NodeStates.assignScopes?]
      rcases hs i node hnode with hunresolved | hdone
      · simp only [hunresolved, if_true]
        refine (forM_spreads (i := i) (fun v hv s2 hs2 => ?_) (hs.set hunresolved _)).mono ?_
        · have hc : ctx.tree.Child i v.1 := hchild.mpr (hchildren ▸ List.mem_map_of_mem hv)
          refine (ih (hi v.1 hc) hs2).mono ?_
          rintro - s3 ⟨hspreads, hdone⟩
          exact ⟨hspreads.lift hc.reaches, hdone⟩
        · rintro - s2 ⟨hspreads, hdone⟩
          refine ⟨.of_children hnode hunresolved hspreads fun c hc => ?_,
            hspreads.done (done_set hunresolved _)⟩
          rw [hchild, ← hchildren] at hc
          obtain ⟨v, hv, rfl⟩ := List.mem_map.mp hc
          exact hdone v hv
      · obtain ⟨sc, hwired⟩ := hdone node hnode
        simp only [hwired]
        exact ⟨.refl _ i s1.nodes, hdone⟩

theorem wire_spreads (hacyclic : ctx.tree.AcyclicBelow root) :
    (wire ctx root σ).After (.start ctx table) fun _ s =>
      (∀ n, ctx.tree.Reaches root n → s.nodes.Done ctx.tree n) ∧
      ∀ n, ¬ ctx.tree.Spans root n →
        s.nodes.get? n = (NodeStates.initial ctx.tree.size).get? n := by
  have hbounded : ctx.tree.Bounded (ctx.tree.size + 1) root := by
    have hle := ctx.tree.extent_le_size root
    exact hacyclic.bounded (by omega)
  have hearly : (Session.start ctx table).nodes.Early ctx.tree := fun n node hnode =>
    Or.inl (get?_initial (Tree.lt_size_of_get hnode))
  refine (wireWithin_spreads hbounded hearly).mono ?_
  rintro - s ⟨hspreads, hdone⟩
  refine ⟨fun n hn => ?_, fun n hn => ?_⟩
  · induction hn with
    | refl => exact hdone
    | @tail p c _ hc ih =>
      obtain ⟨node, hnode⟩ := Tree.get_of_child hc
      obtain ⟨sc, hwired⟩ := ih node hnode
      refine hspreads.closed p ?_ c hc
      rw [hwired, Session.start, get?_initial (Tree.lt_size_of_get hnode)]
      simp
  · rcases hspreads.change n with hsame | ⟨-, hspans, -⟩
    · exact hsame
    · exact absurd hspans hn

/-! ## Resolving what is wired -/

theorem resolveRest_typed {rest : List NodeIndex}
    (hrest : ∀ n ∈ rest, s.Wired n ∧ ∃ node, ctx.tree.get? n = some node) :
    (resolveRest ctx rest).After s fun _ s' => s.Onward s' ∧ ∀ n ∈ rest, s'.Typed n := by
  induction rest generalizing s with
  | nil => exact ⟨.refl s, by simp⟩
  | cons i rest ih =>
    obtain ⟨hwired, hpresent⟩ := hrest i (by simp)
    have hlater : ∀ s1 : Session, s.Onward s1 → s1.Typed i →
        (resolveRest ctx rest).After s1 fun _ s' => s.Onward s' ∧
          ∀ n ∈ i :: rest, s'.Typed n := by
      intro s1 honward htyped
      refine (ih fun n hn => ?_).mono ?_
      · obtain ⟨hn', hpresent'⟩ := hrest n (by simp [hn])
        exact ⟨honward.wired hn', hpresent'⟩
      · rintro - s2 ⟨honward', htyped'⟩
        refine ⟨honward.trans honward', fun n hn => ?_⟩
        rcases List.mem_cons.mp hn with rfl | hn
        · exact honward'.typed htyped
        · exact htyped' n hn
    unfold resolveRest
    simp only [after_bind, after_get]
    split
    · simp only [after_bind]
      have honward := resolveWithin_onward ctx ctx.options.maxResolutionDepth i none s
      have htyped := (resolveWithin_call ctx ctx.options.maxResolutionDepth i none s).typed
        hwired hpresent
      exact hlater _ honward htyped
    · rename_i hresolved
      refine hlater s (.refl s) ?_
      rcases hwired with ⟨sc, hwired⟩ | htyped
      · simp [NodeStates.resolution?, hwired, NodeState.resolution?] at hresolved
      · exact htyped

theorem resolveRest_after {I : Session → Prop} {rest : List NodeIndex}
    (hresolve : ∀ i ∈ rest, ∀ s, I s → (resolve ctx i none).After s fun _ s' => I s') (hs : I s) :
    (resolveRest ctx rest).After s fun _ s' => I s' := by
  induction rest generalizing s with
  | nil => exact hs
  | cons i rest ih =>
    have hlater : ∀ s, I s → (resolveRest ctx rest).After s fun _ s' => I s' := fun s hs =>
      ih (fun j hj => hresolve j (by simp [hj])) hs
    unfold resolveRest
    simp only [after_bind, after_get]
    split
    · simp only [after_bind]
      exact (hresolve i (by simp) s hs).mono fun _ s1 h1 => hlater s1 h1
    · exact hlater s hs

/-- Both phases: what the first one leaves behind is kept until the leftover nodes are resolved. -/
theorem checkRoot_after {I Q : Session → Prop}
    (hwire : (wire ctx root σ).After s fun _ s' => I s')
    (hresolve : ∀ s, I s → (resolve ctx root expected).After s fun _ s' => I s')
    (hassign : ∀ s ty target, I s → (checkAssignable ctx root ty target).After s fun _ s' => I s')
    (hrest : ∀ s, I s → (resolveRest ctx (ctx.tree.descendants root)).After s fun _ s' => Q s') :
    (checkRoot ctx root σ expected).After s fun _ s' => Q s' := by
  unfold checkRoot
  simp only [after_bind]
  refine hwire.mono fun _ s₀ h₀ => (hresolve s₀ h₀).mono fun ty s1 h1 => ?_
  cases expected with
  | none => exact hrest s1 h1
  | some target => exact (hassign s1 ty target h1).mono fun _ s2 h2 => hrest s2 h2

/-- Below the root the nodes are wired at least, and the others are as they were. -/
structure Session.Confined (ctx : Context) (root : NodeIndex) (s : Session) : Prop where
  wired : ∀ {n}, ctx.tree.Spans root n → s.Wired n
  others : ∀ {n}, ¬ ctx.tree.Spans root n →
    s.nodes.get? n = (NodeStates.initial ctx.tree.size).get? n

theorem Session.Confined.onward (h : s.Confined ctx root) (hs : s.Onward s') :
    s'.Confined ctx root := by
  refine ⟨fun hn => hs.wired (h.wired hn), fun {n} hn => ?_⟩
  rcases hs.nodes n with hsame | ⟨r, hwired, -⟩
  · exact hsame.trans (h.others hn)
  · rw [h.others hn, initial, get?, Array.getElem?_replicate] at hwired
    split at hwired <;> simp at hwired

theorem checkRoot_covers (hacyclic : ctx.tree.AcyclicBelow root) :
    (checkRoot ctx root σ expected).After (.start ctx table) fun _ s =>
      s.Confined ctx root ∧ ∀ n, ctx.tree.Spans root n → s.Typed n := by
  refine checkRoot_after (I := Confined ctx root) ?_ ?_ ?_ ?_
  · refine (wire_spreads hacyclic).mono ?_
    rintro - s₀ ⟨hdone, hsame⟩
    exact ⟨fun ⟨hn, node, hnode⟩ => Or.inl (hdone _ hn node hnode), hsame _⟩
  · intro s h
    exact h.onward (resolveWithin_onward ctx ctx.options.maxResolutionDepth root expected s)
  · intro s ty target h
    exact (checkAssignable_onward root ty target s).mono fun _ s' hs' => h.onward hs'
  · intro s h
    refine (resolveRest_typed fun n hn => ?_).mono ?_
    · have hspans := hacyclic.mem_descendants_iff.mp hn
      exact ⟨h.wired hspans, hspans.2⟩
    · rintro - s' ⟨honward, htyped⟩
      exact ⟨h.onward honward, fun n hn => htyped n (hacyclic.mem_descendants_iff.mpr hn)⟩

/-- After a check the descendants of the root are typed, and every other node is unresolved. It
does not matter how deep resolution may go, or what is in the table. -/
theorem typed_iff_descendant (hacyclic : ctx.tree.Acyclic) (table : SymbolTable)
    (root : NodeIndex) (scope : ScopeId) (expected : Option Ty) (n : NodeIndex) :
    ((∃ r, (check ctx table root scope expected).1.nodes.get? n = some (.typed r)) ↔
      n ∈ ctx.tree.descendants root) ∧
    (n < ctx.tree.size → n ∉ ctx.tree.descendants root →
      (check ctx table root scope expected).1.nodes.get? n = some .unresolved) := by
  obtain ⟨hconfined, htyped⟩ : (checkRoot ctx root scope expected).After (.start ctx table) _ :=
    checkRoot_covers (hacyclic.below root)
  rw [(hacyclic.below root).mem_descendants_iff]
  refine ⟨⟨fun ⟨r, hr⟩ => ?_, htyped n⟩, fun hlt hn => ?_⟩
  · by_contra hn
    have hinitial := (hconfined.others hn).symm.trans hr
    rw [initial, get?, Array.getElem?_replicate] at hinitial
    split at hinitial <;> simp at hinitial
  · exact (hconfined.others hn).trans (get?_initial hlt)

/-- `[null, null]` with one node for both elements and two elements that are missing, beside a node
that nobody has. No resolution may nest. -/
def sharedContext : Context where
  env := .initial
  options := { maxResolutionDepth := 0 }
  tree := ⟨#[⟨.literal .null, Span.empty⟩, ⟨.collection [0, 0, 9, NodeIndex.absent], Span.empty⟩,
    ⟨.literal .null, Span.empty⟩]⟩

theorem shared_node_typed :
    (∃ r, (check sharedContext {} 1 0 none).1.nodes.get? 0 = some (.typed r)) ∧
      (check sharedContext {} 1 0 none).1.nodes.get? 2 = some .unresolved := by
  have hacyclic : sharedContext.tree.Acyclic := .of_earlier (by decide)
  constructor
  · exact (typed_iff_descendant hacyclic {} 1 0 none 0).1.mpr (by decide)
  · exact (typed_iff_descendant hacyclic {} 1 0 none 2).2 (by decide) (by decide)

end ScriptTyping
