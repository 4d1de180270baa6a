import ScriptTyping.Proofs.Checking
import ScriptTyping.Proofs.MissedCycles
import ScriptTyping.Proofs.Reports
import ScriptTyping.Proofs.Upkeep

/-!
# No finding is made twice

In a tree whose places are all different a site belongs to at most one node. A node reports each of
its sites at most once while it is resolved, and it is resolved once: whatever it asks for does not
come back to it before it is recorded. So two findings never share their code and their place.
-/

namespace ScriptTyping

open Session Check

variable {ctx : Context} {root c d i k m n : NodeIndex} {base σ : Nat} {s₀ s s' s'' : Session}
  {resolve : Resolver} {sc : NodeScopes} {kind : NodeKind} {told told' : List ReportSite}
  {x : ReportSite} {table : SymbolTable} {expected : Option Ty}

/-! ## The places of a tree -/

namespace Tree

variable {t : Tree}

/-- The places of a node: its own, and those of its parameters. -/
def places (t : Tree) (i : NodeIndex) : List Span :=
  t.span i :: match t.kind? i with
    | some (.lambda params _) => params.map (·.span)
    | _ => []

/-- The places of the nodes below the root. -/
def spans (t : Tree) (root : NodeIndex) : List Span := (t.descendants root).flatMap t.places

theorem Proper.mem_descendants (hp : t.Proper root) (hi : t.Reaches root i) :
    i ∈ t.descendants root :=
  hp.acyclicBelow.mem_descendants_iff.mpr ⟨hi, hp.present hi⟩

theorem Proper.places_nodup (hp : t.Proper root) (hspans : (t.spans root).Nodup)
    (hi : t.Reaches root i) : (t.places i).Nodup :=
  (List.nodup_flatMap.mp hspans).1 i (hp.mem_descendants hi)

theorem Proper.place_unique (hp : t.Proper root) (hspans : (t.spans root).Nodup)
    (hi : t.Reaches root i) (hk : t.Reaches root k) {span : Span} (hspan : span ∈ t.places i)
    (hspan' : span ∈ t.places k) : i = k := by
  by_contra hne
  have hsymm : Std.Symm (Function.onFun List.Disjoint t.places) := ⟨fun _ _ h => h.symm⟩
  have hdisjoint := (List.nodup_flatMap.mp hspans).2.forall (hp.mem_descendants hi)
    (hp.mem_descendants hk) hne
  exact hdisjoint hspan hspan'

theorem Proper.span_inj (hp : t.Proper root) (hspans : (t.spans root).Nodup)
    (hi : t.Reaches root i) (hk : t.Reaches root k) (h : t.span i = t.span k) : i = k :=
  hp.place_unique hspans hi hk List.mem_cons_self (h ▸ List.mem_cons_self)

end Tree

/-! ## The sites of a node -/

/-- The codes of what a node finds about itself or its parameters, not about a child. -/
def Message.ownCodes : List Nat :=
  [cannotFindName, cannotFindType, typeArgumentCount, typeArgumentsRequired, argumentCount,
    memberNotFound, memberAmbiguous, circularReference, parameterNotInferred].map (·.code)

theorem place_of_finding (hk : ctx.tree.kind? i = some kind) (hx : x ∈ ctx.findings i kind) :
    x.1 ∈ Message.ownCodes ∧ x.2 ∈ ctx.tree.places i ∨
      x.1 ∉ Message.ownCodes ∧ ∃ c, ctx.tree.Child i c ∧ x.2 = ctx.tree.span c := by
  have hself : ∀ {ms : List Message}, (∀ m ∈ ms, m.code ∈ Message.ownCodes) →
      x ∈ ms.map (ctx.site i) → x.1 ∈ Message.ownCodes ∧ x.2 ∈ ctx.tree.places i := by
    intro ms hms hx
    obtain ⟨m, hm, rfl⟩ := List.mem_map.mp hx
    exact ⟨hms m hm, List.mem_cons_self⟩
  have hchild : ∀ {m : Message} {c}, m.code ∉ Message.ownCodes → c ∈ kind.children →
      (ctx.site c m).1 ∉ Message.ownCodes ∧
        ∃ c', ctx.tree.Child i c' ∧ (ctx.site c m).2 = ctx.tree.span c' := fun hm hc =>
    ⟨hm, _, (Tree.child_of_kind hk).mpr hc, rfl⟩
  cases kind with
  | literal | collection | block => cases hx
  | identifier name => exact Or.inl (hself (by decide) hx)
  | memberAccess object member => exact Or.inl (hself (by decide) hx)
  | typeRef name args => exact Or.inl (hself (by decide) hx)
  | lambda params body =>
    obtain ⟨p, hmem, rfl⟩ := List.mem_map.mp hx
    have hcode : Message.parameterNotInferred.code ∈ Message.ownCodes := by decide
    refine Or.inl ⟨hcode, ?_⟩
    simp only [Tree.places, hk]
    exact List.mem_cons_of_mem _ (List.mem_map_of_mem hmem)
  | invocation callee arguments trailing =>
    rcases List.mem_cons.mp hx with rfl | hx
    · exact Or.inr (hchild (by decide) List.mem_cons_self)
    · rcases List.mem_cons.mp hx with rfl | hx
      · have hcode : Message.argumentCount.code ∈ Message.ownCodes := by decide
        exact Or.inl ⟨hcode, List.mem_cons_self⟩
      · obtain ⟨c, hc, rfl⟩ := List.mem_map.mp hx
        exact Or.inr (hchild (by decide) (List.mem_cons_of_mem callee hc))
  | conjunction left right =>
    obtain ⟨c, hc, rfl⟩ := List.mem_map.mp hx
    exact Or.inr (hchild (by decide) hc)
  | conditional | typeTest | declaration =>
    rw [List.mem_singleton.mp hx]
    exact Or.inr (hchild (by decide) (by simp [NodeKind.children]))
  | assignment target value =>
    simp only [Context.findings, List.mem_cons, List.not_mem_nil, or_false] at hx
    rcases hx with rfl | rfl | rfl
    · exact Or.inr (hchild (by decide) List.mem_cons_self)
    · exact Or.inr (hchild (by decide) List.mem_cons_self)
    · exact Or.inr (hchild (by decide) (by simp [NodeKind.children]))

/-- The site belongs to the node. -/
def Owns (ctx : Context) (root n : NodeIndex) (x : ReportSite) : Prop :=
  ctx.tree.Reaches root n ∧ ∃ kind, ctx.tree.kind? n = some kind ∧ x ∈ ctx.findings n kind

section Distinct

variable (hp : ctx.tree.Proper root) (hspans : (ctx.tree.spans root).Nodup)

include hp hspans

theorem Owns.unique (h : Owns ctx root n x) (h' : Owns ctx root m x) : n = m := by
  obtain ⟨hn, kind, hk, hx⟩ := h
  obtain ⟨hm, kind', hk', hx'⟩ := h'
  -- The code tells whether the place is the owner's or that of a child with one parent.
  rcases place_of_finding hk hx with ⟨hown, hplace⟩ | ⟨hown, c, hc, hplace⟩
  · rcases place_of_finding hk' hx' with ⟨-, hplace'⟩ | ⟨hown', -⟩
    · exact hp.place_unique hspans hn hm hplace hplace'
    · exact absurd hown hown'
  · rcases place_of_finding hk' hx' with ⟨hown', -⟩ | ⟨-, c', hc', hplace'⟩
    · exact absurd hown' hown
    · obtain rfl := hp.span_inj hspans (hn.tail hc) (hm.tail hc') (hplace.symm.trans hplace')
      exact hp.one_parent hn hm hc hc'

theorem findings_nodup (hi : ctx.tree.Reaches root i) (hk : ctx.tree.kind? i = some kind) :
    (ctx.findings i kind).Nodup := by
  have hslots : kind.children.Nodup := Tree.children_of_kind hk ▸ hp.one_slot hi
  have hspan : ∀ c ∈ kind.children, ∀ c' ∈ kind.children,
      ctx.tree.span c = ctx.tree.span c' → c = c' := fun c hc c' hc' =>
    hp.span_inj hspans (hi.tail ((Tree.child_of_kind hk).mpr hc))
      (hi.tail ((Tree.child_of_kind hk).mpr hc'))
  have hchildren : ∀ {cs : List NodeIndex} (m : Message), cs.Nodup → cs ⊆ kind.children →
      (cs.map (ctx.site · m)).Nodup := fun m hcs hsub =>
    hcs.map_on fun c hc c' hc' heq => hspan c (hsub hc) c' (hsub hc') (congrArg Prod.snd heq)
  have hcodes : ∀ {sites : List ReportSite}, (sites.map (·.1)).Nodup → sites.Nodup := .of_map _
  cases kind with
  | literal | collection | block => exact .nil
  | conditional | typeTest | declaration => exact List.nodup_singleton _
  | identifier name =>
    exact hcodes (show [1001, 2401, 2402].Nodup by decide)
  | memberAccess object member => exact hcodes (show [2101, 2102].Nodup by decide)
  | typeRef name args => exact hcodes (show [1002, 1004, 1003].Nodup by decide)
  | assignment target value => exact hcodes (show [2204, 2203, 2201].Nodup by decide)
  | conjunction left right => exact hchildren _ hslots (List.Subset.refl _)
  | lambda params body =>
    have hplaces := hp.places_nodup hspans hi
    simp only [Tree.places, hk] at hplaces
    refine List.Nodup.of_map Prod.snd ?_
    rw [Context.findings, List.map_map]
    exact (List.nodup_cons.mp hplaces).2
  | invocation callee arguments trailing =>
    have hcode : ∀ y ∈ (arguments ++ trailing.toList).map (ctx.site · .argumentNotAssignable),
        y.1 = Message.argumentNotAssignable.code := by
      intro y hy
      obtain ⟨c, -, rfl⟩ := List.mem_map.mp hy
      rfl
    refine List.nodup_cons.mpr ⟨fun hmem => ?_, List.nodup_cons.mpr ⟨fun hmem => ?_, ?_⟩⟩
    · rcases List.mem_cons.mp hmem with heq | hmem
      · exact absurd (congrArg Prod.fst heq) (show ¬ 2003 = 2002 by decide)
      · exact absurd (hcode _ hmem) (show ¬ 2003 = 2001 by decide)
    · exact absurd (hcode _ hmem) (show ¬ 2002 = 2001 by decide)
    · exact hchildren _ (List.nodup_cons.mp hslots).2 (List.subset_cons_self _ _)

end Distinct

/-! ## How often a site is reported -/

def Session.times (s : Session) (x : ReportSite) : Nat := (s.diagnostics.map (·.site)).count x

theorem Session.Onward.recorded (h : s.Onward s') (hn : s.Recorded n) : s'.Recorded n := by
  obtain ⟨r, hr⟩ := hn
  rcases h.nodes n with hsame | ⟨r', hwired, -⟩
  · exact ⟨r, by rw [NodeStates.resolution?, hsame]; exact hr⟩
  · simp [NodeStates.resolution?, hwired, NodeState.resolution?] at hr

theorem Session.recorded_congr (h : s'.nodes = s.nodes) : s'.Recorded n ↔ s.Recorded n := by
  rw [Session.Recorded, Session.Recorded, h]

/-- Apart from what is told a site is reported at most once more, and then the node that it belongs
to has been recorded meanwhile. The depth limit belongs to no node. -/
def OnceMore (ctx : Context) (root : NodeIndex) (told : List ReportSite) (s s' : Session) : Prop :=
  ∀ x : ReportSite, x.1 ≠ Message.expressionTooDeep.code →
    s'.times x ≤ s.times x + told.count x ∨
      s'.times x ≤ s.times x + told.count x + 1 ∧
        ∃ n, Owns ctx root n x ∧ ¬ s.Recorded n ∧ s'.Recorded n

namespace OnceMore

theorem of_same (h : s'.diagnostics = s.diagnostics) : OnceMore ctx root [] s s' :=
  fun x _ => Or.inl (by rw [times, h]; rfl)

theorem tell (s : Session) (found : Diagnostic) : OnceMore ctx root [found.site] s
    { s with diagnostics := s.diagnostics ++ [found] } := by
  refine fun x _ => Or.inl (Nat.le_of_eq ?_)
  rw [times, List.map_append, List.count_append]
  rfl

theorem more (h : OnceMore ctx root told s s') (hle : told.Sublist told') :
    OnceMore ctx root told' s s' := by
  intro x hx
  have hcount := hle.count_le x
  exact (h x hx).imp (fun hle => by omega) fun ⟨hle, howner⟩ => ⟨by omega, howner⟩

theorem trans (hp : ctx.tree.Proper root) (hspans : (ctx.tree.spans root).Nodup)
    (h : OnceMore ctx root told s s') (h' : OnceMore ctx root told' s' s'') (hs : s.Onward s')
    (hs' : s'.Onward s'') : OnceMore ctx root (told ++ told') s s'' := by
  intro x hx
  rw [List.count_append]
  rcases h x hx with hle | ⟨hle, n, hn, hnot, hrec⟩
  · refine (h' x hx).imp (fun hle' => by omega) ?_
    rintro ⟨hle', n, hn, hnot, hrec⟩
    exact ⟨by omega, n, hn, fun hold => hnot (hs.recorded hold), hrec⟩
  · rcases h' x hx with hle' | ⟨-, n', hn', hnot', -⟩
    · exact Or.inr ⟨by omega, n, hn, hnot, hs'.recorded hrec⟩
    -- The one owner of a site cannot have been recorded in both halves.
    · exact absurd (hn.unique hp hspans hn' ▸ hrec) hnot'

end OnceMore

/-! ## Between two questions -/

/-- The declarations that the node stands in are resolved or on their way. Type references read no
names, so it does not matter there. -/
def Session.Covers (ctx : Context) (root : NodeIndex) (s : Session) (i : NodeIndex) : Prop :=
  ctx.tree.isTypeRef i = true ∨ ∀ {d}, ctx.tree.Reaches root d →
    ctx.tree.isDeclaration d = true → ctx.tree.Reaches d i → s.Settled d

/-- The node may be asked for. -/
def Session.Admits (ctx : Context) (root : NodeIndex) (s : Session) (k : NodeIndex) : Prop :=
  s.Recorded k ∨ ctx.tree.isTypeRef k = true ∨ ∀ {d}, ctx.tree.Reaches root d →
    ctx.tree.isDeclaration d = true → ctx.tree.Above d k → s.Settled d

/-- What changes while `i` is resolved, before `i` itself is recorded. -/
structure Between (ctx : Context) (root i : NodeIndex) (told : List ReportSite) (s s' : Session) :
    Prop where
  onward : s.Onward s'
  settled : ∀ {d}, s.Settled d → s'.Settled d
  nodes : ∀ {m}, s'.Recorded m → s.Recorded m ∨ Within ctx root s i m
  once : OnceMore ctx root told s s'

/-- What a question for `k` changes. -/
structure Answered (ctx : Context) (root k : NodeIndex) (s s' : Session) : Prop where
  onward : s.Onward s'
  settled : ∀ {d}, s.Settled d → s'.Settled d
  nodes : ∀ {m}, s'.Recorded m → s.Recorded m ∨
    ¬ s.Recorded k ∧ (m = k ∨ Within ctx root s k m)
  once : OnceMore ctx root [] s s'

/-- The resolver does no more for a node that may be asked for. -/
def Punctual (ctx : Context) (root : NodeIndex) (s₀ : Session) (resolve : Resolver) : Prop :=
  ∀ k expected s, s₀.Onward s → ctx.tree.Reaches root k → s.Admits ctx root k →
    Answered ctx root k s (resolve k expected s).2

theorem Answered.of_same (honward : s.Onward s') (hprogress : s'.inProgress = s.inProgress)
    (hnodes : s'.nodes = s.nodes) (hdiagnostics : s'.diagnostics = s.diagnostics) :
    Answered ctx root k s s' where
  onward := honward
  settled h := h.imp honward.recorded fun hd => hprogress ▸ hd
  nodes h := Or.inl ((recorded_congr hnodes).mp h)
  once := .of_same hdiagnostics

theorem Layout.sees_of_reads {id : SymbolId} (hL : Layout ctx root base s₀)
    (h : Reads ctx s₀.table i sc.scope id) : s₀.table.Sees sc.scope id := by
  induction h with
  | meant _ hmeant => exact (SymbolTable.sees_of_resolve hmeant).1
  | original _ hsym ih => exact hL.accounted.originals (hL.base_le hsym (by simp)) hsym ih

section Asking

variable (hL : Layout ctx root base s₀) (hi : ctx.tree.Reaches root i)
  (hsc : s₀.nodes.scopes? i = some sc)

include hL hi hsc

theorem Asks.admitted (hk : Asks ctx s₀.table i sc s k) (hcovers : s.Covers ctx root i) :
    ctx.tree.Reaches root k ∧ s.Admits ctx root k := by
  cases hk with
  | child hc =>
    refine ⟨hi.tail hc, Or.inr (hcovers.imp (fun htype => hL.types.child hi htype hc) ?_)⟩
    intro hsettled d hd hdecl habove
    exact hsettled hd hdecl (hL.proper.reaches_parent hd hi hc habove)
  | demand hread hsym hd =>
    have hvis := (hL.sees hi hsc (hL.base_le hsym (by simp)) hsym).mp (hL.sees_of_reads hread)
    refine ⟨(hL.source hsym).1, Or.inr (Or.inr fun hx hxdecl hxd => ?_)⟩
    exact hcovers.resolve_left (by simp [hread.not_typeRef]) hx hxdecl
      (hL.above_of_visible hvis hx hxd).reaches
  | target hread hsym hk =>
    obtain ⟨hroot, htype⟩ := hL.typeTest_target hsym hk
    exact ⟨hroot, Or.inr (Or.inl htype)⟩

omit hsc in
theorem Asks.within (hk : Asks ctx s₀.table i sc s k) (hnot : ¬ s.Recorded k)
    (hm : m = k ∨ Within ctx root s k m) : Within ctx root s i m := by
  cases hk with
  | child hc =>
    rcases hm with rfl | habove | ⟨hvalue, hrest⟩
    · exact Or.inl hc.above
    · exact Or.inl (hc.above.trans habove)
    · refine Or.inr ⟨?_, hrest⟩
      by_contra htype
      have hchild := hL.types.child hi (by simpa using htype) hc
      simp [hchild] at hvalue
  | demand hread hsym hd =>
    obtain ⟨hroot, -, hdecl⟩ := hL.source hsym
    have hopen : ctx.tree.Reaches k m → Within ctx root s i m := fun hkm =>
      Or.inr ⟨hread.not_typeRef, Or.inr ⟨k, hroot, Tree.isDeclaration_iff.mpr ⟨_, _, hdecl⟩, hkm,
        fun hsettled => hsettled.elim hnot hd⟩⟩
    rcases hm with rfl | habove | ⟨-, hrest⟩
    · exact hopen (.refl _ _)
    · exact hopen habove.reaches
    · exact Or.inr ⟨hread.not_typeRef, hrest⟩
  | target hread hsym hk =>
    obtain ⟨hroot, htype⟩ := hL.typeTest_target hsym hk
    have hbelow : ctx.tree.Reaches k m → Within ctx root s i m := fun hkm =>
      Or.inr ⟨hread.not_typeRef, Or.inl (hL.types.below hroot htype hkm)⟩
    rcases hm with rfl | habove | ⟨hvalue, -⟩
    · exact hbelow (.refl _ _)
    · exact hbelow habove.reaches
    · simp [htype] at hvalue

variable (hspans : (ctx.tree.spans root).Nodup) (hresolve : Punctual ctx root s₀ resolve)

include hspans hresolve

theorem Row.between (h : Row ctx resolve s₀.table i sc told s s') (hs : s₀.Onward s)
    (hcovers : s.Covers ctx root i) : Between ctx root i told s s' := by
  have hp := hL.proper
  induction h with
  | start s => exact ⟨.refl s, fun h => h, Or.inl, .of_same rfl⟩
  | @ask told s s' k hrow hk expected ih =>
    have hbetween := ih hs hcovers
    have hcovers' : s'.Covers ctx root i :=
      hcovers.imp_right fun h _ hd hdecl hdi => hbetween.settled (h hd hdecl hdi)
    obtain ⟨hroot, hadmits⟩ := hk.admitted hL hi hsc hcovers'
    have hcall := hresolve k expected s' (hs.trans hbetween.onward) hroot hadmits
    refine ⟨hbetween.onward.trans hcall.onward, fun h => hcall.settled (hbetween.settled h), ?_, ?_⟩
    · intro m hm
      rcases hcall.nodes hm with hm | ⟨hnot, hm⟩
      · exact hbetween.nodes hm
      · exact Or.inr ((hk.within hL hi hnot hm).mono hbetween.settled)
    · have honce := hbetween.once.trans hp hspans hcall.once hbetween.onward hcall.onward
      rwa [List.append_nil] at honce
  | @set told s s' _ types ih =>
    have hbetween := ih hs hcovers
    have honward : s'.Onward { s' with symbolTypes := types } := .of_same rfl rfl rfl rfl
    exact ⟨hbetween.onward.trans honward, hbetween.settled, hbetween.nodes, hbetween.once⟩
  | @tell told s s' _ found ih =>
    have hbetween := ih hs hcovers
    have honward := Onward.report s' found
    exact ⟨hbetween.onward.trans honward, hbetween.settled, hbetween.nodes,
      hbetween.once.trans hp hspans (.tell s' found) hbetween.onward honward⟩

end Asking

/-! ## A whole resolution -/

/-- When a node is recorded, what it has told is part of its own sites, so each of them has been
reported once more. -/
theorem OnceMore.closed (hp : ctx.tree.Proper root) (hspans : (ctx.tree.spans root).Nodup)
    (h : OnceMore ctx root told s s') (hi : ctx.tree.Reaches root i)
    (hk : ctx.tree.kind? i = some kind) (hpart : told.Sublist (ctx.findings i kind))
    (hbefore : ¬ s.Recorded i) (hnot : ¬ s'.Recorded i) (honward : s'.Onward s'')
    (hafter : s''.Recorded i) (htimes : s''.times = s'.times) : OnceMore ctx root [] s s'' := by
  intro x hx
  rw [htimes, List.count_nil, Nat.add_zero]
  have hnodup : told.Nodup := hpart.nodup (findings_nodup hp hspans hi hk)
  by_cases hmem : x ∈ told
  · have howns : Owns ctx root i x := ⟨hi, kind, hk, hpart.subset hmem⟩
    have hcount : told.count x = 1 := List.count_eq_one_of_mem hnodup hmem
    rcases h x hx with hle | ⟨-, n, hn, -, hrec⟩
    · exact Or.inr ⟨by omega, i, howns, hbefore, hafter⟩
    · exact absurd (hn.unique hp hspans howns ▸ hrec) hnot
  · have hcount : told.count x = 0 := List.count_eq_zero.mpr hmem
    rcases h x hx with hle | ⟨hle, n, hn, hold, hrec⟩
    · exact Or.inl (by omega)
    · exact Or.inr ⟨by omega, n, hn, hold, honward.recorded hrec⟩

namespace Session

variable {ty : Ty} {binding : Binding}

theorem Wired.isRecorded (h : s.Wired i) (ty : Ty) (binding : Binding) :
    (s.recorded i ty binding).Recorded i := by
  obtain ⟨r, hr⟩ := h.recorded ty binding
  exact ⟨r, by rw [NodeStates.resolution?, hr]; rfl⟩

theorem Recorded.of_recorded (h : (s.recorded i ty binding).Recorded m) : m = i ∨ s.Recorded m := by
  obtain ⟨r, hr⟩ := h
  rcases resolution_recorded hr with hold | ⟨rfl, -⟩
  · exact Or.inr ⟨r, hold⟩
  · exact Or.inl rfl

end Session

theorem Between.answered {s1 s2 : Session} (h : Between ctx root i told s s1)
    (hcovers : s.Covers ctx root i) (hp : ctx.tree.Proper root)
    (hspans : (ctx.tree.spans root).Nodup) (hi : ctx.tree.Reaches root i)
    (hk : ctx.tree.kind? i = some kind) (hpart : told.Sublist (ctx.findings i kind))
    (hnot : ¬ s.Recorded i) (hwired : s.Wired i) (hend : s1.Onward s2)
    (hnodes : s2.nodes = s1.nodes) (hdiagnostics : s2.diagnostics = s1.diagnostics)
    (hprogress : ∀ d ∈ s1.inProgress, d ≠ i → d ∈ s2.inProgress) (ty : Ty) (binding : Binding) :
    Answered ctx root i s (s2.recorded i ty binding) := by
  have hlast := hend.trans (onward_recorded s2 i ty binding)
  have hself := (hend.wired (h.onward.wired hwired)).isRecorded ty binding
  have hunrecorded : ¬ s1.Recorded i := fun hrec =>
    (h.nodes hrec).elim hnot fun hwithin => hwithin.irrefl hp hi hcovers
  refine ⟨h.onward.trans hlast, fun {d} hd => ?_, fun {m} hm => ?_, ?_⟩
  · rcases h.settled hd with hrec | hmem
    · exact Or.inl (hlast.recorded hrec)
    · by_cases hdi : d = i
      · exact Or.inl (hdi ▸ hself)
      · exact Or.inr (hprogress d hmem hdi)
  · rcases hm.of_recorded with rfl | hm
    · exact Or.inr ⟨hnot, Or.inl rfl⟩
    · exact (h.nodes ((recorded_congr hnodes).mp hm)).imp_right fun hwithin =>
        ⟨hnot, Or.inr hwithin⟩
  · refine h.once.closed hp hspans hi hk hpart hnot hunrecorded hlast hself ?_
    funext x
    rw [times, times, ← hdiagnostics]
    rfl

theorem Answered.begin (h : Answered ctx root k s' s'') (hs : s.Onward s')
    (hsettled : ∀ {d}, s.Settled d → s'.Settled d) (hnodes : s'.nodes = s.nodes)
    (hdiagnostics : s'.diagnostics = s.diagnostics) : Answered ctx root k s s'' := by
  have hrecorded : ∀ {m}, s'.Recorded m ↔ s.Recorded m := recorded_congr hnodes
  refine ⟨hs.trans h.onward, fun hd => h.settled (hsettled hd), fun {m} hm => ?_, fun x hx => ?_⟩
  · refine (h.nodes hm).imp hrecorded.mp ?_
    rintro ⟨hnot, hm⟩
    exact ⟨fun hrec => hnot (hrecorded.mpr hrec), hm.imp_right fun hwithin => hwithin.mono hsettled⟩
  · have honce := h.once x hx
    rw [show s'.times x = s.times x by rw [times, times, hdiagnostics]] at honce
    refine honce.imp_right ?_
    rintro ⟨hle, n, hn, hnot, hrec⟩
    exact ⟨hle, n, hn, fun hold => hnot (hrecorded.mpr hold), hrec⟩

section Resolving

variable (hL : Layout ctx root base s₀) (hspans : (ctx.tree.spans root).Nodup)

include hL hspans

theorem Reported.answered (h : Reported ctx resolve i sc kind told s s')
    (hresolve : Punctual ctx root s₀ resolve) (hi : ctx.tree.Reaches root i)
    (hk : ctx.tree.kind? i = some kind) (hs : s₀.Onward s) (hsc : s₀.nodes.scopes? i = some sc)
    (hpart : told.Sublist (ctx.findings i kind)) (hnot : ¬ s.Recorded i)
    (hadmits : s.Admits ctx root i) (hwired : s.Wired i) (ty : Ty) (binding : Binding)
    (depth : Nat) :
    Answered ctx root i s (Session.recorded { s' with depth := depth } i ty binding) := by
  have hp := hL.proper
  have hleave : ∀ s : Session, s.Onward { s with depth := depth } := fun _ =>
    .of_same rfl rfl rfl rfl
  have habove := hadmits.resolve_left hnot
  cases h with
  | plain hkind hrow =>
    rw [hs.table] at hrow
    have hcovers : s.Covers ctx root i := habove.imp_right fun habove d hd hdecl hdi => by
      rcases hdi.eq_or_above with rfl | hdi
      · simp [Tree.isDeclaration, hk, hkind] at hdecl
      · exact habove hd hdecl hdi
    have hbetween := hrow.between hL hi hsc hspans hresolve hs hcovers
    exact hbetween.answered hcovers hp hspans hi hk hpart hnot hwired (hleave s') rfl rfl
      (fun d hd _ => hd) ty binding
  | @declaration s1 hkind hrow ty' =>
    rw [hs.table] at hrow
    -- A declaration stands in itself, and is on its way from now on.
    have hsettled : ∀ {d}, s.Settled d → (s.begun i).Settled d := fun hd =>
      hd.imp_right List.mem_insert_of_mem
    have hcovers : (s.begun i).Covers ctx root i := habove.imp_right fun habove d hd hdecl hdi => by
      rcases hdi.eq_or_above with rfl | hdi
      · exact Or.inr List.mem_insert_self
      · exact hsettled (habove hd hdecl hdi)
    have hbetween := hrow.between hL hi hsc hspans hresolve (hs.trans (onward_begun s i)) hcovers
    refine Answered.begin ?_ (onward_begun s i) hsettled rfl rfl
    refine hbetween.answered hcovers hp hspans hi hk hpart hnot hwired
      ((onward_ended s1 i ty').trans (hleave _)) rfl rfl (fun d hd hne => ?_) ty binding
    exact List.mem_filter.mpr ⟨hd, by simpa using hne⟩

omit hL hspans in
/-- A node that is too deep is recorded without a question; the report belongs to no node. -/
theorem answered_tooDeep (hnot : ¬ s.Recorded k) (hwired : s.Wired k) :
    Answered ctx root k s ((s.tooDeep ctx k).recorded k .unknown .none) := by
  have hdeep := onward_tooDeep ctx s k
  have hlast := hdeep.trans (onward_recorded (s.tooDeep ctx k) k .unknown .none)
  have hself := (hdeep.wired hwired).isRecorded .unknown .none
  refine ⟨hlast, fun {d} hd => ?_, fun {m} hm => ?_, fun x hx => Or.inl (Nat.le_of_eq ?_)⟩
  · refine hd.imp hlast.recorded fun hmem => ?_
    unfold Session.recorded tooDeep
    split <;> exact hmem
  · rcases hm.of_recorded with rfl | hm
    · exact Or.inr ⟨hnot, Or.inl rfl⟩
    · exact Or.inl ((recorded_congr (tooDeep_nodes ctx s k)).mp hm)
  · have hsite : ctx.site k .expressionTooDeep ≠ x := by
      rintro rfl
      exact hx rfl
    unfold Session.recorded tooDeep
    split
    · rfl
    · simp only [times, List.map_append, List.count_append]
      exact congrArg _ (List.count_cons_of_ne hsite)

theorem resolveWithin_punctual (remaining : Nat) :
    Punctual ctx root s₀ (resolveWithin ctx remaining) := by
  refine resolveWithin_induction
    (fun remaining hbelow k expected s hs hroot hadmits => ?_) remaining
  change (resolveWithin ctx remaining k expected).After s fun _ s' => Answered ctx root k s s'
  have hwired : s.Wired k := hs.wired (hL.node_wired hroot)
  unfold resolveWithin
  simp only [after_bind, after_get]
  split
  · exact .of_same (.refl s) rfl rfl rfl
  · rename_i hnone
    have hnot : ¬ s.Recorded k := by
      rintro ⟨r, hr⟩
      simp [NodeStates.type?, hr] at hnone
    split
    · rename_i sc node hsc hnode
      split
      · simp only [after_bind, after_reportTooDeep, after_pure]
        exact answered_tooDeep hnot hwired
      · rename_i below
        simp only [after_bind, enter, leave, Check.record, after_modify, after_pure]
        have hk := Tree.kind_of_get hnode
        have henter : s.Onward { s with depth := s.depth + 1 } := .of_same rfl rfl rfl rfl
        refine (resolveKind_reported (keepsTable_resolveWithin ctx below) hk _).mono ?_
        rintro ⟨ty, binding⟩ s1 ⟨told, hpart, hreported⟩
        have hanswered := hreported.answered hL hspans (hbelow below rfl) hroot hk
          (hs.trans henter) ((hs.scopes k).symm.trans hsc) hpart hnot hadmits (henter.wired hwired)
          ty binding (s1.depth - 1)
        exact hanswered.begin henter (fun hd => hd) rfl rfl
    · exact .of_same (.refl s) rfl rfl rfl

end Resolving

/-! ## A whole check -/

section Checking

variable (hL : Layout ctx root base s₀) (hspans : (ctx.tree.spans root).Nodup)

include hL hspans

theorem resolve_answered (hs : s₀.Onward s) (hi : ctx.tree.Reaches root i)
    (habove : ∀ {a}, ctx.tree.Reaches root a → ctx.tree.Above a i → s.Recorded a)
    (expected : Option Ty) :
    (Check.resolve ctx i expected).After s fun _ s' => s.Onward s' ∧ OnceMore ctx root [] s s' ∧
      s'.Recorded i := by
  have hadmits : s.Admits ctx root i := Or.inr (Or.inr fun hd _ hdi => Or.inl (habove hd hdi))
  have hanswered := resolveWithin_punctual hL hspans ctx.options.maxResolutionDepth i expected s hs
    hi hadmits
  have htyped : (Check.resolve ctx i expected s).2.Typed i :=
    (resolveWithin_call ctx ctx.options.maxResolutionDepth i expected s).typed
      (hs.wired (hL.node_wired hi)) (hL.proper.present hi)
  obtain ⟨r, hr⟩ := htyped
  exact ⟨hanswered.onward, hanswered.once, r, by rw [NodeStates.resolution?, hr]; rfl⟩

theorem resolveRest_once {done rest : List NodeIndex} (hs : s₀.Onward s)
    (hdone : ∀ a ∈ done, s.Recorded a) (hrest : ctx.tree.AncestorsFirst root done rest) :
    (resolveRest ctx rest).After s fun _ s' => s.Onward s' ∧ OnceMore ctx root [] s s' := by
  induction rest generalizing s done with
  | nil => exact ⟨.refl s, .of_same rfl⟩
  | cons i rest ih =>
    obtain ⟨hi, habove, hrest⟩ := hrest
    have hlater : ∀ {s1 : Session}, s.Onward s1 → OnceMore ctx root [] s s1 → s1.Recorded i →
        (resolveRest ctx rest).After s1 fun _ s' => s.Onward s' ∧ OnceMore ctx root [] s s' := by
      intro s1 honward honce hrec
      have hdone' : ∀ a ∈ i :: done, s1.Recorded a := by
        intro a ha
        rcases List.mem_cons.mp ha with rfl | ha
        · exact hrec
        · exact honward.recorded (hdone a ha)
      refine (ih (hs.trans honward) hdone' hrest).mono ?_
      rintro - s2 ⟨honward', honce'⟩
      exact ⟨honward.trans honward', honce.trans hL.proper hspans honce' honward honward'⟩
    unfold resolveRest
    simp only [after_bind, after_get]
    split
    · simp only [after_bind]
      refine (resolve_answered hL hspans hs hi (fun ha hai => hdone _ (habove ha hai)) none).mono ?_
      rintro ty s1 ⟨honward, honce, hrec⟩
      exact hlater honward honce hrec
    · rename_i hsome
      exact hlater (.refl s) (.of_same rfl) (Option.ne_none_iff_exists'.mp (by simpa using hsome))

end Checking

/-- The root belongs to no parent that could report the place, so only the check itself does. -/
theorem not_owns_root (hp : ctx.tree.Proper root) (hspans : (ctx.tree.spans root).Nodup) :
    ¬ Owns ctx root n (ctx.site root .typeNotAssignable) := by
  rintro ⟨hn, kind, hk, hx⟩
  rcases place_of_finding hk hx with ⟨hcode, -⟩ | ⟨-, c, hc, hplace⟩
  · exact absurd hcode (show ¬ Message.typeNotAssignable.code ∈ Message.ownCodes by decide)
  · obtain rfl := hp.span_inj hspans (.refl _ root) (hn.tail hc) hplace
    exact hp.root_free hn hc

theorem checkAssignable_once (n : NodeIndex) (ty target : Ty) (s : Session) :
    (checkAssignable ctx n ty target).After s fun _ s' =>
      s.Onward s' ∧ OnceMore ctx root [ctx.site n .typeNotAssignable] s s' := by
  unfold checkAssignable
  split
  · exact ⟨.refl s, OnceMore.more (.of_same rfl) (List.nil_sublist _)⟩
  · rw [after_reportAt]
    exact ⟨.report s _, .tell s _⟩

theorem checkRoot_once (hp : ctx.tree.Proper root) (htypes : ctx.tree.TypesInPlace root)
    (hhost : table.HostScope σ) (hspans : (ctx.tree.spans root).Nodup) :
    (checkRoot ctx root σ expected).After (.start ctx table) fun _ s => ∀ x : ReportSite,
      x.1 ≠ Message.expressionTooDeep.code → s.times x ≤ 1 := by
  unfold checkRoot
  simp only [after_bind]
  refine (wire_spec hp hhost.wf hhost.lt).mono ?_
  rintro - s₀ ⟨hwalked, hacc⟩
  have hL := hwalked.layout hp htypes hhost hacc
  refine (resolve_answered hL hspans (.refl s₀) (.refl _ root)
    (fun ha habove => absurd ha (hp.not_reaches_of_above ha habove)) expected).mono ?_
  rintro ty s1 ⟨honward1, honce1, hrec1⟩
  have hfinish : ∀ {s2 : Session}, s1.Onward s2 →
      OnceMore ctx root [ctx.site root .typeNotAssignable] s1 s2 →
      (do resolveRest ctx (ctx.tree.descendants root); pure ty : Check Ty).After s2 fun _ s =>
        ∀ x : ReportSite, x.1 ≠ Message.expressionTooDeep.code → s.times x ≤ 1 := by
    intro s2 honward2 honce2
    simp only [after_bind, after_pure]
    refine (resolveRest_once hL hspans (honward1.trans honward2) (by simp)
      hp.descendants_ancestorsFirst).mono ?_
    rintro - s3 ⟨honward3, honce3⟩ x hx
    have hstart : s₀.times x = 0 := by
      rw [times, hwalked.grows.later.2.1]
      rfl
    have honce := (honce1.trans hp hspans honce2 honward1 honward2).trans hp hspans honce3
      (honward1.trans honward2) honward3
    rcases honce x hx with hle | ⟨hle, n, howns, -⟩
    · have hlength := List.count_le_length (a := x) (l := [ctx.site root .typeNotAssignable])
      exact hle.trans (by simpa [hstart] using hlength)
    · have hother : ctx.site root .typeNotAssignable ≠ x := by
        rintro rfl
        exact not_owns_root hp hspans howns
      simpa [hstart, List.count_cons_of_ne hother] using hle
  cases expected with
  | none => exact hfinish (.refl s1) (OnceMore.more (.of_same rfl) (List.nil_sublist _))
  | some target =>
    simp only [after_bind]
    exact (checkAssignable_once root ty target s1).mono fun _ s2 h => hfinish h.1 h.2

/-- No two findings of a check share their code and their place. -/
theorem findings_distinct (hp : ctx.tree.Proper root) (htypes : ctx.tree.TypesInPlace root)
    (hhost : table.HostScope σ) (hspans : (ctx.tree.spans root).Nodup) (expected : Option Ty) :
    ((check ctx table root σ expected).1.diagnostics.map (·.site)).Nodup := by
  rw [List.nodup_iff_count_le_one]
  intro x
  by_cases hx : x.1 = Message.expressionTooDeep.code
  · have hlimit := (checkRoot_limitTold ctx table root σ expected).count_le_one
    rw [List.count, List.countP_map]
    refine (List.countP_mono_left fun f _ hf => ?_).trans hlimit
    have hsite : f.site = x := by simpa using hf
    exact beq_iff_eq.mpr ((congrArg Prod.fst hsite).trans hx)
  · exact checkRoot_once hp htypes hhost hspans x hx

/-- A place in a script of one line. -/
def Span.inLine (start stop : Nat) : Span := ⟨⟨start, 1, start⟩, ⟨stop, 1, stop⟩⟩

/-- `{ const a = a; x; { p -> x } }`. -/
def faultyContext : Context where
  env := .initial
  options := {}
  tree := ⟨#[⟨.identifier "a", .inLine 12 13⟩, ⟨.declaration "a" true none 0, .inLine 2 13⟩,
    ⟨.identifier "x", .inLine 15 16⟩, ⟨.identifier "x", .inLine 25 26⟩,
    ⟨.lambda [⟨"p", none, .inLine 20 21⟩] 3, .inLine 18 28⟩, ⟨.block [1, 2, 4], .inLine 0 30⟩]⟩

def faultyTable : SymbolTable := (SymbolTable.hostScope {} []).2

/-- The two findings with the same code stand in different places. -/
theorem faulty_script_found_once :
    (check faultyContext faultyTable 5 0 none).1.diagnostics.map (·.site) =
        [(2401, .inLine 12 13), (1001, .inLine 15 16), (2402, .inLine 20 21),
          (1001, .inLine 25 26)] ∧
      ((check faultyContext faultyTable 5 0 none).1.diagnostics.map (·.site)).Nodup := by
  have hp : faultyContext.tree.Proper 5 := by
    apply Tree.Proper.of_slots <;> decide
  have htypes : faultyContext.tree.TypesInPlace 5 := by
    apply Tree.TypesInPlace.of_nodes
    decide
  have hhost : faultyTable.HostScope 0 := SymbolTable.hostScope_spec _
  have hspans : (faultyContext.tree.spans 5).Nodup := by decide
  exact ⟨by decide +kernel, findings_distinct hp htypes hhost hspans none⟩

end ScriptTyping
