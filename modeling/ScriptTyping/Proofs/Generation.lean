import ScriptTyping.Exec.Generate
import ScriptTyping.Proofs.Checking

/-!
# Generation

After a check without diagnostics every node that is to be generated has the binding that it needs,
except for a call of an unknown callee and a member of an unknown object. Generation visits each
node once, so it fails at such a node only.
-/

namespace ScriptTyping

/-! ## What holds after a generation -/

namespace Generate

variable {α β : Type} {st : NodeStates}

/-- `Q` holds of the result and the marks, or `E` of the error. -/
def After (m : Generate α) (st : NodeStates) (Q : α → NodeStates → Prop)
    (E : GenerateError → Prop) : Prop :=
  match m.run.run st with
  | (.ok a, st') => Q a st'
  | (.error e, _) => E e

variable {Q : α → NodeStates → Prop} {E : GenerateError → Prop}

@[simp] theorem after_pure (a : α) : After (pure a) st Q E ↔ Q a st := Iff.rfl

@[simp] theorem after_throw (e : GenerateError) :
    After (throw e : Generate α) st Q E ↔ E e := Iff.rfl

@[simp] theorem after_bind (m : Generate β) (k : β → Generate α) :
    After (m >>= k) st Q E ↔ m.After st (fun b st' => (k b).After st' Q E) E := by
  change (match (m.run >>= ExceptT.bindCont k).run st with
    | (.ok a, st') => Q a st'
    | (.error e, _) => E e) ↔ _
  unfold After
  rw [StateT.run_bind]
  rcases m.run.run st with ⟨_ | b, st'⟩ <;> exact Iff.rfl

@[simp] theorem after_get (Q : NodeStates → NodeStates → Prop) :
    After get st Q E ↔ Q st st := Iff.rfl

@[simp] theorem after_set (st' : NodeStates) (Q : PUnit → NodeStates → Prop) :
    After (set st') st Q E ↔ Q ⟨⟩ st' := Iff.rfl

theorem After.cases {m : Generate α} (h : m.After st Q E) :
    (∃ a st', m.run.run st = (.ok a, st') ∧ Q a st') ∨
      ∃ e st', m.run.run st = (.error e, st') ∧ E e := by
  unfold After at h
  split at h
  · rename_i a st' hrun
    exact Or.inl ⟨a, st', hrun, h⟩
  · rename_i e st' hrun
    exact Or.inr ⟨e, st', hrun, h⟩

theorem After.mono {m : Generate α} {Q' : α → NodeStates → Prop} {E' : GenerateError → Prop}
    (h : m.After st Q E) (hQ : ∀ a st', Q a st' → Q' a st') (hE : ∀ e, E e → E' e) :
    m.After st Q' E' := by
  unfold After at h ⊢
  split at h
  · exact hQ _ _ h
  · exact hE _ h

end Generate

/-! ## What stands in the way -/

/-- A node that cannot be generated, with the error that it gives. -/
inductive Findings.Blocks (t : Tree) (f : Findings) : NodeIndex → GenerateError → Prop
  | call {n callee : NodeIndex} {arguments : List NodeIndex} {trailing : Option NodeIndex}
      (hk : t.kind? n = some (.invocation callee arguments trailing))
      (h : f.type? callee = some .unknown) : Blocks t f n (.missingBinding n "Invocation" "Call")
  | member {n object : NodeIndex} {name : String}
      (hk : t.kind? n = some (.memberAccess object name)) (h : f.type? object = some .unknown) :
      Blocks t f n (.missingBinding n "MemberAccess" "Member")

namespace Findings

variable {t : Tree} {f : Findings} {i callee object : NodeIndex} {ty : Ty} {kind : NodeKind}

theorem not_blocks_call {arguments : List NodeIndex} {trailing : Option NodeIndex}
    (hk : t.kind? i = some (.invocation callee arguments trailing))
    (hcallee : f.type? callee = some ty) (hty : ty ≠ .unknown) (e : GenerateError) :
    ¬ f.Blocks t i e := by
  intro hblocks
  cases hblocks with
  | call hk' hunknown =>
    rw [hk] at hk'
    cases hk'
    rw [hcallee] at hunknown
    exact hty (Option.some.inj hunknown)
  | member hk' => simp [hk] at hk'

theorem not_blocks_member {member : String} (hk : t.kind? i = some (.memberAccess object member))
    (hobject : f.type? object = some ty) (hty : ty ≠ .unknown) (e : GenerateError) :
    ¬ f.Blocks t i e := by
  intro hblocks
  cases hblocks with
  | call hk' => simp [hk] at hk'
  | member hk' hunknown =>
    rw [hk] at hk'
    cases hk'
    rw [hobject] at hunknown
    exact hty (Option.some.inj hunknown)

theorem not_blocks_other (hk : t.kind? i = some kind)
    (hcall : ∀ callee arguments trailing, kind ≠ .invocation callee arguments trailing)
    (hmember : ∀ object member, kind ≠ .memberAccess object member) (e : GenerateError) :
    ¬ f.Blocks t i e := by
  intro hblocks
  cases hblocks with
  | call hk' => exact hcall _ _ _ (Option.some.inj (hk.symm.trans hk'))
  | member hk' => exact hmember _ _ (Option.some.inj (hk.symm.trans hk'))

end Findings

namespace Generate

variable {t : Tree} {root i c n : NodeIndex} {f : Findings} {α β : Type} {st st' : NodeStates}
  {cs ds : List NodeIndex}

/-- Nothing below the node is in the way. -/
def Clear (t : Tree) (f : Findings) (i : NodeIndex) : Prop :=
  ∀ n e, t.Reaches i n → ¬ f.Blocks t n e

/-- Nothing below the node has been marked yet. -/
def Pending (t : Tree) (f : Findings) (st : NodeStates) (i : NodeIndex) : Prop :=
  ∀ n, t.Reaches i n → st.get? n = f.nodes.get? n

/-- No two of the nodes have anything below them in common. -/
def Apart (t : Tree) (cs : List NodeIndex) : Prop :=
  cs.Pairwise fun c d => ∀ n, t.Reaches c n → ¬ t.Reaches d n

theorem apart_children (hp : t.Proper root) (hi : t.Reaches root i) : Apart t (t.children i) := by
  refine (hp.one_slot hi).imp_of_mem ?_
  intro c d hc hd hne n hn hn'
  exact hne (hp.siblings_apart hi hc hd hn hn')

/-- `m` generates the nodes and marks nothing outside of them. It fails only at a node that is in
the way. -/
def Builds (t : Tree) (f : Findings) (cs : List NodeIndex) (m : Generate α) : Prop :=
  ∀ st, Apart t cs → (∀ c ∈ cs, Pending t f st c) → m.After st
    (fun _ st' => (∀ {n}, (∀ c ∈ cs, ¬ t.Reaches c n) → st'.get? n = st.get? n) ∧
      ∀ c ∈ cs, Clear t f c)
    fun e => ∃ c ∈ cs, ∃ n, t.Reaches c n ∧ f.Blocks t n e

namespace Builds

theorem pure (t : Tree) (f : Findings) (a : α) : Builds t f [] (Pure.pure a : Generate α) := by
  intro st _ _
  exact ⟨fun _ => rfl, by simp⟩

theorem bind {m : Generate α} {k : α → Generate β} (hm : Builds t f cs m)
    (hk : ∀ a, Builds t f ds (k a)) : Builds t f (cs ++ ds) (m >>= k) := by
  intro st hapart hpending
  obtain ⟨hcs, hds, hacross⟩ := List.pairwise_append.mp hapart
  rw [after_bind]
  refine (hm st hcs fun c hc => hpending c (List.mem_append_left _ hc)).mono ?_ ?_
  · rintro a st1 ⟨hframe, hclear⟩
    refine (hk a st1 hds fun d hd n hn => ?_).mono ?_ ?_
    · -- What `m` has marked is not below `d`.
      rw [hframe fun c hc hn' => hacross c hc d hd n hn' hn]
      exact hpending d (List.mem_append_right _ hd) n hn
    · rintro b st2 ⟨hframe', hclear'⟩
      refine ⟨fun {n} hn => ?_, fun c hc => ?_⟩
      · rw [hframe' fun d hd => hn d (List.mem_append_right _ hd),
          hframe fun c hc => hn c (List.mem_append_left _ hc)]
      · rcases List.mem_append.mp hc with hc | hc
        · exact hclear c hc
        · exact hclear' c hc
    · rintro e ⟨d, hd, hblocks⟩
      exact ⟨d, List.mem_append_right _ hd, hblocks⟩
  · rintro e ⟨c, hc, hblocks⟩
    exact ⟨c, List.mem_append_left _ hc, hblocks⟩

theorem map {m : Generate α} (hm : Builds t f cs m) (g : α → β) :
    Builds t f cs (m >>= fun a => Pure.pure (g a)) := by
  have h := hm.bind fun a => Builds.pure t f (g a)
  rwa [List.append_nil] at h

theorem mapM {visit : NodeIndex → Generate α} (h : ∀ c ∈ cs, Builds t f [c] (visit c)) :
    Builds t f cs (cs.mapM visit) := by
  induction cs with
  | nil => exact Builds.pure t f []
  | cons c cs ih =>
    rw [List.mapM_cons]
    exact (h c (by simp)).bind fun a => (ih fun d hd => h d (by simp [hd])).map _

theorem forM {visit : NodeIndex → Generate PUnit} (h : ∀ c ∈ cs, Builds t f [c] (visit c)) :
    Builds t f cs (cs.forM visit) := by
  induction cs with
  | nil => exact Builds.pure t f PUnit.unit
  | cons c cs ih => exact (h c (by simp)).bind fun _ => ih fun d hd => h d (by simp [hd])

end Builds

/-! ## Marking -/

theorem after_typed {r : Resolution} (h : st.get? i = some (.typed r))
    {Q : Resolution → NodeStates → Prop} {E : GenerateError → Prop} :
    (typed i).After st Q E ↔ Q r st := by
  simp only [typed, after_bind, after_get, h, after_pure]

theorem after_finish {r : Resolution} (h : st.get? i = some (.typed r))
    {Q : Unit → NodeStates → Prop} {E : GenerateError → Prop} :
    (finish i).After st Q E ↔ Q () (st.set i (.generated r)) := by
  simp only [finish, after_bind, after_get, NodeStates.markGenerated?, h, after_set]

theorem Builds.node {m : Generate α} {r : Resolution} (hp : t.Proper root)
    (hi : t.Reaches root i) (htyped : f.nodes.get? i = some (.typed r))
    (hblocks : ∀ e, ¬ f.Blocks t i e) (hm : Builds t f (t.children i) m)
    (hpending : Pending t f st i) :
    m.After st (fun _ st' => st'.get? i = some (.typed r) ∧
      (∀ {n}, ¬ t.Reaches i n → (st'.set i (.generated r)).get? n = st.get? n) ∧ Clear t f i)
      fun e => ∃ n, t.Reaches i n ∧ f.Blocks t n e := by
  have hbelow : ∀ c ∈ t.children i, ∀ {n}, t.Reaches c n → t.Reaches i n :=
    fun c hc {n} hn => (Tree.Child.reaches hc).trans hn
  refine (hm st (apart_children hp hi) fun c hc n hn => hpending n (hbelow c hc hn)).mono ?_ ?_
  · rintro a st1 ⟨hframe, hclear⟩
    refine ⟨?_, fun {n} hn => ?_, fun n e hn => ?_⟩
    · rw [hframe fun c hc => hp.not_reaches_of_above hi (Tree.Child.above hc),
        hpending i (.refl t i), htyped]
    · have hne : i ≠ n := by
        rintro rfl
        exact hn (.refl t i)
      rw [NodeStates.get?_set_of_ne _ hne, hframe fun c hc hn' => hn (hbelow c hc hn')]
    · rcases hn.eq_or_above with rfl | habove
      · exact hblocks e
      · obtain ⟨c, hc, hcn⟩ := habove.first
        exact hclear c hc n e hcn
  · rintro e ⟨c, hc, n, hn, he⟩
    exact ⟨n, hbelow c hc hn, he⟩

end Generate

/-! ## After a check without diagnostics -/

/-- Every node of the tree is typed by its rule. -/
structure Sound (ctx : Context) (root : NodeIndex) (f : Findings) : Prop where
  proper : ctx.tree.Proper root
  types : ctx.tree.TypesInPlace root
  typed : ∀ {n}, ctx.tree.Reaches root n → ∃ r kind, f.nodes.get? n = some (.typed r) ∧
    ctx.tree.kind? n = some kind ∧ f.TypingRule ctx n r kind

def Findings.checked (ctx : Context) (f : Findings) : Checked :=
  ⟨ctx.tree, ctx.env.definitions, f.table, f.symbolTypes⟩

namespace Findings

variable {ctx : Context} {f : Findings} {id : SymbolId} {ty : Ty}

theorem SymbolHasType.exists_symbol (h : f.SymbolHasType ctx id ty) :
    ∃ sym, f.table.symbol? id = some sym := by
  cases h with
  | host hsym => exact ⟨_, hsym⟩
  | source hsym => exact ⟨_, hsym⟩
  | parameter hsym => exact ⟨_, hsym⟩
  | narrowed hsym => exact ⟨_, hsym⟩

theorem SymbolHasType.exists_unnarrowed (h : f.SymbolHasType ctx id ty) (links : Nat) :
    ∃ sym, f.table.symbol? (f.table.unnarrowedWithin links id) = some sym := by
  induction links generalizing id ty with
  | zero => exact h.exists_symbol
  | succ links ih =>
    unfold SymbolTable.unnarrowedWithin
    split
    · rename_i name o g hsym
      cases h with
      | narrowed hsym' _ _ hdeclared =>
        rw [hsym] at hsym'
        cases hsym'
        exact ih hdeclared
      | _ hsym' => simp [hsym] at hsym'
    · exact h.exists_symbol

end Findings

/-! ## One node -/

namespace Generate

variable {ctx : Context} {i : NodeIndex} {f : Findings}

theorem readSymbol_ok {id : SymbolId} {ty : Ty} (hty : f.SymbolHasType ctx id ty) (site : Site) :
    ∃ exec, readSymbol (f.checked ctx) site id = pure exec := by
  obtain ⟨sym, hsym⟩ := hty.exists_symbol
  obtain ⟨base, hbase⟩ := hty.exists_unnarrowed f.table.symbols.size
  unfold readSymbol
  simp only [Findings.checked, hsym, SymbolTable.unnarrowed, hbase]
  split
  · exact ⟨_, rfl⟩
  · exact ⟨_, rfl⟩

/-- A node generates its children and no more, or it is in the way itself. -/
theorem generateKind_spec (site : Site) {generate : NodeIndex → Generate Exec}
    {mark : NodeIndex → Generate Unit} {r : Resolution} {kind : NodeKind}
    (hk : ctx.tree.kind? i = some kind)
    (hrule : f.TypingRule ctx i r kind) (hkind : kind.isTypeRef = false)
    (hgenerate : ∀ c ∈ kind.valuePlaces, Builds ctx.tree f [c] (generate c))
    (hmark : ∀ c ∈ kind.typePlaces, Builds ctx.tree f [c] (mark c)) :
    (Builds ctx.tree f kind.children
        (generateKind (f.checked ctx) generate mark i site kind r.binding) ∧
      ∀ e, ¬ f.Blocks ctx.tree i e) ∨
    ∃ e, f.Blocks ctx.tree i e ∧
      generateKind (f.checked ctx) generate mark i site kind r.binding = throw e := by
  cases kind with
  | identifier name =>
    obtain ⟨id, -, hbinding, hty⟩ := hrule
    obtain ⟨exec, hexec⟩ := readSymbol_ok hty site
    refine Or.inl ⟨?_, Findings.not_blocks_other hk (by simp) (by simp)⟩
    simp only [generateKind, hbinding, hexec]
    exact Builds.pure ctx.tree f exec
  | literal value =>
    exact Or.inl ⟨Builds.pure ctx.tree f _, Findings.not_blocks_other hk (by simp) (by simp)⟩
  | collection elements =>
    refine Or.inl ⟨?_, Findings.not_blocks_other hk (by simp) (by simp)⟩
    simp only [generateKind]
    exact (Builds.mapM hgenerate).map _
  | conditional condition thenBranch elseBranch =>
    refine Or.inl ⟨?_, Findings.not_blocks_other hk (by simp) (by simp)⟩
    simp only [generateKind]
    refine (hgenerate condition (by simp [NodeKind.valuePlaces, NodeKind.children])).bind
      fun test => ?_
    refine (hgenerate thenBranch (by simp [NodeKind.valuePlaces, NodeKind.children])).bind
      fun yes => ?_
    cases elseBranch with
    | none => exact Builds.pure ctx.tree f _
    | some e => exact (hgenerate e (by simp [NodeKind.valuePlaces, NodeKind.children])).map _
  | invocation callee arguments trailing =>
    obtain ⟨calleeTy, types, hcallee, -, ⟨rfl, -, hbinding⟩ |
      ⟨params, result, params', rfl, -, -, hbinding, -⟩⟩ := hrule
    · refine Or.inr ⟨_, .call hk hcallee, ?_⟩
      simp only [generateKind, hbinding]
      rfl
    · refine Or.inl ⟨?_, Findings.not_blocks_call hk hcallee (by simp)⟩
      simp only [generateKind, hbinding]
      refine (hgenerate callee (by simp [NodeKind.valuePlaces, NodeKind.children])).bind
        fun target => (Builds.mapM fun c hc => hgenerate c ?_).map _
      exact List.mem_cons_of_mem _ hc
  | memberAccess object member =>
    obtain ⟨objectTy, hobject, ⟨rfl, -, hbinding⟩ | ⟨found, hne, hbinding, -⟩⟩ := hrule
    · refine Or.inr ⟨_, .member hk hobject, ?_⟩
      simp only [generateKind, hbinding]
      rfl
    · refine Or.inl ⟨?_, Findings.not_blocks_member hk hobject hne⟩
      simp only [generateKind, hbinding]
      exact (hgenerate object (by simp [NodeKind.valuePlaces, NodeKind.children])).map _
  | lambda params body =>
    obtain ⟨τ, data, resolved, bound, result, -, -, -, -, hbinding, -⟩ := hrule
    refine Or.inl ⟨?_, Findings.not_blocks_other hk (by simp) (by simp)⟩
    simp only [generateKind, hbinding]
    exact (Builds.forM hmark).bind fun _ => (hgenerate body (by simp [NodeKind.valuePlaces])).map _
  | typeTest operand target =>
    obtain ⟨tested, asserted, -, -, -, hbinding, -⟩ := hrule
    refine Or.inl ⟨?_, Findings.not_blocks_other hk (by simp) (by simp)⟩
    simp only [generateKind, hbinding]
    exact (hgenerate operand (by simp [NodeKind.valuePlaces])).bind fun value =>
      (hmark target (by simp [NodeKind.typePlaces])).map _
  | conjunction left right =>
    refine Or.inl ⟨?_, Findings.not_blocks_other hk (by simp) (by simp)⟩
    simp only [generateKind]
    exact (hgenerate left (by simp [NodeKind.valuePlaces, NodeKind.children])).bind fun first =>
      (hgenerate right (by simp [NodeKind.valuePlaces, NodeKind.children])).map _
  | block statements =>
    refine Or.inl ⟨?_, Findings.not_blocks_other hk (by simp) (by simp)⟩
    simp only [generateKind]
    exact (Builds.mapM hgenerate).map _
  | declaration name isConst ascription initializer =>
    obtain ⟨id, declared, -, hbinding, -⟩ := hrule
    refine Or.inl ⟨?_, Findings.not_blocks_other hk (by simp) (by simp)⟩
    simp only [generateKind, hbinding]
    exact (Builds.forM hmark).bind fun _ =>
      (hgenerate initializer (by simp [NodeKind.valuePlaces])).map _
  | assignment target value =>
    obtain ⟨name, id, assigned, given, -, -, -, -, -, -, -, hbinding⟩ := hrule
    refine Or.inl ⟨?_, Findings.not_blocks_other hk (by simp) (by simp)⟩
    simp only [generateKind, hbinding]
    exact (hgenerate target (by simp [NodeKind.valuePlaces, NodeKind.children])).bind fun first =>
      (hgenerate value (by simp [NodeKind.valuePlaces, NodeKind.children])).map _
  | typeRef name args => simp [NodeKind.isTypeRef] at hkind

end Generate

/-! ## All nodes -/

namespace Sound

open Generate

variable {ctx : Context} {root i : NodeIndex} {f : Findings} (h : Sound ctx root f)

include h

theorem typeRef_clear (hi : ctx.tree.Reaches root i) (htype : ctx.tree.isTypeRef i = true) :
    Clear ctx.tree f i := by
  intro n e hn hblocks
  have htype' := h.types.below hi htype hn
  cases hblocks with
  | call hk => simp [Tree.isTypeRef, hk, NodeKind.isTypeRef] at htype'
  | member hk => simp [Tree.isTypeRef, hk, NodeKind.isTypeRef] at htype'

theorem markTypeRef_builds {depth : Nat} (hi : ctx.tree.Reaches root i)
    (htype : ctx.tree.isTypeRef i = true) :
    Builds ctx.tree f [i] (markTypeRef (f.checked ctx) depth i) := by
  induction depth generalizing i with
  | zero =>
    intro st _ hpending
    obtain ⟨r, kind, htyped, -⟩ := h.typed hi
    have hst : st.get? i = some (.typed r) := by
      rw [hpending i (by simp) i (.refl _ i), htyped]
    unfold markTypeRef
    rw [after_finish hst]
    refine ⟨fun {n} hn => NodeStates.get?_set_of_ne st ?_ _, ?_⟩
    · rintro rfl
      exact hn i (by simp) (.refl _ i)
    · simpa using h.typeRef_clear hi htype
  | succ depth ih =>
    intro st _ hpending
    obtain ⟨r, kind, htyped, hk, -⟩ := h.typed hi
    cases kind with
    | typeRef name args =>
      have hargs : Builds ctx.tree f (ctx.tree.children i)
          (args.forM (markTypeRef (f.checked ctx) depth)) := by
        rw [Tree.children_of_kind hk]
        refine Builds.forM fun c hc => ih (hi.tail ((Tree.child_of_kind hk).mpr hc)) ?_
        exact (h.types i _ hi hk).1 c hc
      unfold markTypeRef
      simp only [Findings.checked, hk, after_bind]
      refine (hargs.node h.proper hi htyped (fun e => h.typeRef_clear hi htype i e (.refl _ i))
        (hpending i (by simp))).mono ?_ fun e he => ⟨i, by simp, he⟩
      rintro - st1 ⟨hst1, hframe, hclear⟩
      rw [after_finish hst1]
      exact ⟨fun hn => hframe (hn i (by simp)), by simpa using hclear⟩
    | _ => simp [Tree.isTypeRef, hk, NodeKind.isTypeRef] at htype

theorem generateWithin_builds {depth : Nat} (hi : ctx.tree.Reaches root i)
    (htype : ctx.tree.isTypeRef i = false) (hdepth : ctx.tree.extent i ≤ depth) :
    Builds ctx.tree f [i] (generateWithin (f.checked ctx) depth i) := by
  induction depth generalizing i with
  | zero => exact absurd (h.proper.extent_pos hi) (by omega)
  | succ depth ih =>
    intro st _ hpending
    obtain ⟨r, kind, htyped, hk, hrule⟩ := h.typed hi
    obtain ⟨node, hnode⟩ := h.proper.present hi
    have hkind := Tree.kind_of_get hnode
    rw [hk] at hkind
    cases hkind
    have hst : st.get? i = some (.typed r) := by
      rw [hpending i (by simp) i (.refl _ i), htyped]
    have hchild : ∀ {c}, c ∈ node.kind.children → ctx.tree.Child i c := (Tree.child_of_kind hk).mpr
    have hvalues : ∀ c ∈ node.kind.valuePlaces,
        Builds ctx.tree f [c] (generateWithin (f.checked ctx) depth c) := by
      intro c hc
      have hic := hchild ((NodeKind.mem_children_iff _ c).mpr (Or.inr hc))
      have hlt := h.proper.extent_lt hi hic
      exact ih (hi.tail hic) ((h.types i _ hi hk).2 c hc) (by omega)
    have htypes : ∀ c ∈ node.kind.typePlaces,
        Builds ctx.tree f [c] (markTypeRef (f.checked ctx) depth c) := by
      intro c hc
      have hic := hchild ((NodeKind.mem_children_iff _ c).mpr (Or.inl hc))
      exact h.markTypeRef_builds (hi.tail hic) ((h.types i _ hi hk).1 c hc)
    have hnot : node.kind.isTypeRef = false := by simpa [Tree.isTypeRef, hk] using htype
    unfold generateWithin
    simp only [after_bind, after_typed hst, Findings.checked, hnode]
    rcases generateKind_spec ⟨r.ty, node.span⟩ hk hrule hnot hvalues htypes with
      ⟨hbuilds, hblocks⟩ | ⟨e, hblocks, hthrow⟩
    · rw [← Tree.children_of_kind hk] at hbuilds
      refine (hbuilds.node h.proper hi htyped hblocks (hpending i (by simp))).mono ?_
        fun e he => ⟨i, by simp, he⟩
      rintro exec st1 ⟨hst1, hframe, hclear⟩
      simp only [after_finish hst1, after_pure]
      exact ⟨fun hn => hframe (hn i (by simp)), by simpa using hclear⟩
    · simp only [Findings.checked] at hthrow
      rw [hthrow, after_throw]
      exact ⟨i, by simp, i, .refl _ i, hblocks⟩

end Sound

/-! ## A whole tree -/

variable {ctx : Context} {root : NodeIndex} {wanted : Option Ty} {table table' : SymbolTable}

theorem Concluded.sound {ty : Ty} {s : Session} (h : Concluded ctx root wanted table ty s)
    (hclean : s.diagnostics = []) : Sound ctx root s.findings := by
  obtain ⟨s₀, hL, hlater⟩ := h.layout
  refine ⟨hL.proper, hL.types, fun hn => ?_⟩
  obtain ⟨r, kind, hr, hk, hrule⟩ := h.rule hclean hn
  exact ⟨r, kind, (hlater.trace hclean).typed (hL.unresolved hn) hr, hk, hrule⟩

/-- After a check that reports nothing, a tree that is a value can be generated unless a callee or
the object of a member access is unknown. The error is then that of such a node. -/
theorem generation_ok_iff {σ : Nat} {result : CheckResult} (hp : ctx.tree.Proper root)
    (htypes : ctx.tree.TypesInPlace root) (hhost : table.HostScope σ)
    (hvalue : ctx.tree.isTypeRef root = false)
    (hcheck : check ctx table root σ wanted = (result, table')) (hclean : result.diagnostics = []) :
    ((∃ exec, (result.generate ctx.tree ctx.env table' root).1 = .ok exec) ↔
      ¬ ∃ n e, ctx.tree.Reaches root n ∧
        Findings.Blocks ctx.tree ⟨result.nodes, table', result.symbolTypes⟩ n e) ∧
    ∀ e, (result.generate ctx.tree ctx.env table' root).1 = .error e →
      ∃ n, ctx.tree.Reaches root n ∧
        Findings.Blocks ctx.tree ⟨result.nodes, table', result.symbolTypes⟩ n e := by
  obtain ⟨ty, s, heq, hconcluded⟩ := check_spec wanted hp htypes hhost
  rw [heq] at hcheck
  cases hcheck
  have hbuilds : (Generate.generate (s.findings.checked ctx) root).After s.nodes _ _ :=
    (hconcluded.sound hclean).generateWithin_builds (.refl _ root) hvalue
      (Nat.le_succ_of_le (ctx.tree.extent_le_size root)) s.nodes (List.pairwise_singleton _ _)
      fun c _ n _ => rfl
  change ((∃ exec, ((Generate.generate (s.findings.checked ctx) root).run.run s.nodes).1 =
    .ok exec) ↔ _) ∧ ∀ e, ((Generate.generate (s.findings.checked ctx) root).run.run s.nodes).1 =
    .error e → _
  rcases hbuilds.cases with ⟨exec, nodes, hrun, -, hclear⟩ |
    ⟨e, nodes, hrun, c, hc, n, hn, hblocks⟩
  · rw [hrun]
    refine ⟨⟨?_, fun _ => ⟨exec, rfl⟩⟩, by simp⟩
    rintro - ⟨n, e, hn, hblocks⟩
    exact hclear root (by simp) n e hn hblocks
  · rw [hrun]
    rw [List.mem_singleton.mp hc] at hn
    refine ⟨⟨by simp, fun hnone => absurd ⟨n, e, hn, hblocks⟩ hnone⟩, ?_⟩
    rintro e' ⟨⟩
    exact ⟨n, hn, hblocks⟩

/-- `v.length`, with an unknown `v` given by the host. -/
def unknownContext : Context where
  env := .initial
  options := {}
  tree := ⟨#[⟨.identifier "v", Span.empty⟩, ⟨.memberAccess 0 "length", Span.empty⟩]⟩

def unknownTable : SymbolTable := (SymbolTable.hostScope {} [("v", .unknown)]).2

theorem unknown_object_not_generated : ∃ result table',
    check unknownContext unknownTable 1 0 none = (result, table') ∧ result.diagnostics = [] ∧
      ∀ exec, (result.generate unknownContext.tree unknownContext.env table' 1).1 ≠ .ok exec := by
  have hp : unknownContext.tree.Proper 1 := by
    apply Tree.Proper.of_slots <;> decide
  have htypes : unknownContext.tree.TypesInPlace 1 := by
    apply Tree.TypesInPlace.of_nodes
    decide
  have hhost : unknownTable.HostScope 0 := SymbolTable.hostScope_spec _
  have hclean : (check unknownContext unknownTable 1 0 none).1.diagnostics = [] := by decide +kernel
  have hobject : (check unknownContext unknownTable 1 0 none).1.nodes.type? 0 = some .unknown := by
    decide +kernel
  have hk : unknownContext.tree.kind? 1 = some (.memberAccess 0 "length") := by decide
  generalize hcheck : check unknownContext unknownTable 1 0 none = outcome at hclean hobject
  obtain ⟨result, table'⟩ := outcome
  refine ⟨result, table', rfl, hclean, fun exec hexec => ?_⟩
  refine (generation_ok_iff hp htypes hhost (by decide) hcheck hclean).1.mp ⟨exec, hexec⟩ ?_
  exact ⟨1, _, .refl _ 1, .member hk hobject⟩

end ScriptTyping
