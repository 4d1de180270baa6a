import Mathlib.Algebra.GroupWithZero.Nat
import ScriptTyping.Proofs.Coverage
import ScriptTyping.Proofs.Generation
import ScriptTyping.Proofs.LexicalScoping
import ScriptTyping.Proofs.References
import ScriptTyping.Proofs.TypeParts

/-!
# Translation

The executable form is a translation of the checked tree: every expression becomes one node with
the recorded type and its own span, made from the translations of its children in the order of the
text. A few nodes are added, each for a reason that can be read off from what is recorded. The
generation marks nodes on its way; the translation says what it gives without the marks.
-/

namespace ScriptTyping

open Generate

/-! ## The translation -/

def NodeKind.lacksElse : NodeKind → Bool
  | conditional _ _ none => true
  | _ => false

section

variable (c : Checked) (nodes : NodeStates)

/-- The type of the read below the conversion, for a node that reads at one type and gives another:
a narrowed symbol at the type of its binding, or a member of a bound generic at the type that the
generic definition declares. -/
def innerType? (kind : NodeKind) (r : Resolution) : Option Ty :=
  match kind, r.binding with
  | .identifier _, .symbol id =>
    if (c.table.symbol? id).any (·.isNarrowed) then
      let base := c.table.unnarrowed id
      (c.table.symbol? base).map (plainType c base)
    else
      none
  | .memberAccess object name, _ =>
    match nodes.type? object with
    | some (.nominal id _ (some _)) =>
      match c.definitions.findMembers (c.definitions.selfInstance id) name with
      | [member] => if member.ty == r.ty then none else some member.ty
      | _ => none
    | _ => none
  | _, _ => none

/-- A read at the site itself, or at the inner type below a conversion. -/
def readAt (site : Site) (inner : Option Ty) (read : Site → Exec) : Exec :=
  match inner with
  | none => read site
  | some ty => .convert site (read ⟨ty, site.span⟩)

/-- A node from the translations of its children. -/
def compose (node : Node) (r : Resolution) (es : List Exec) : Option Exec :=
  let site : Site := ⟨r.ty, node.span⟩
  let inner := innerType? c nodes node.kind r
  match node.kind, r.binding, es with
  | .identifier _, .symbol id, [] =>
    let base := c.table.unnarrowed id
    (c.table.symbol? base).map fun s => readAt site inner (readPlain · base s)
  | .literal value, _, [] => some (.constant site value)
  | .collection _, _, elements => some (.collection site elements)
  | .conditional _ _ (some _), _, [condition, thenBranch, elseBranch] =>
    some (.conditional site condition thenBranch elseBranch)
  | .conditional _ _ none, _, [condition, thenBranch] =>
    some (.conditional site condition thenBranch (.constant ⟨Ty.null, site.span⟩ .null))
  | .invocation .., .call signature, callee :: arguments =>
    some (.invoke site callee arguments signature)
  | .memberAccess .., .member member, [object] =>
    some (readAt site inner (.memberRead · object member))
  | .lambda .., .lambda bound, [body] => some (.lambda site (lambdaParams site.ty bound) body)
  | .typeTest .., .typeTest asserted, [value] => some (.typeTest site value asserted)
  | .conjunction .., _, [left, right] => some (.conjunction site left right)
  | .block _, _, statements => some (.block site statements)
  | .declaration name isConst .., .declaration id, [value] =>
    some (.declare site id name isConst value)
  | .assignment .., .assignment _, [target, value] => some (.assign site target value)
  | _, _, _ => none

/-- The translation of a node, if no path from it has more than `depth` nodes. -/
def translate : Nat → NodeIndex → Option Exec
  | 0, _ => none
  | depth + 1, i => do
    let node ← c.tree.get? i
    let r ← nodes.resolution? i
    let es ← node.kind.valuePlaces.mapM (translate depth)
    compose c nodes node r es

/-- How many nodes the translation adds beside the node's own. -/
def additions (i : NodeIndex) : Nat :=
  match c.tree.get? i, nodes.resolution? i with
  | some node, some r => node.kind.lacksElse.toNat + (innerType? c nodes node.kind r).isSome.toNat
  | _, _ => 0

end

variable {c : Checked} {nodes : NodeStates} {node : Node} {r : Resolution} {e : Exec}
  {es : List Exec} {depth : Nat} {i n : NodeIndex}

theorem readAt_site (site : Site) (inner : Option Ty) {read : Site → Exec}
    (h : ∀ site, (read site).site = site) : (readAt site inner read).site = site := by
  cases inner with
  | none => exact h site
  | some ty => rfl

theorem readPlain_site (site : Site) (id : SymbolId) (s : Symbol) :
    (readPlain site id s).site = site := by
  unfold readPlain
  split <;> rfl

theorem compose_site (h : compose c nodes node r es = some e) : e.site = ⟨r.ty, node.span⟩ := by
  unfold compose at h
  dsimp only at h
  split at h
  case h_1 id _ _ _ =>
    obtain ⟨s, -, rfl⟩ := Option.map_eq_some_iff.mp h
    exact readAt_site _ _ fun site => readPlain_site site _ s
  case h_7 =>
    cases h
    exact readAt_site _ _ fun site => rfl
  all_goals cases h <;> rfl

theorem compose_isTypeRef (h : compose c nodes node r es = some e) :
    node.kind.isTypeRef = false := by
  cases hk : node.kind with
  | typeRef name args => simp [compose, hk] at h
  | _ => rfl

theorem translate_succ : translate c nodes (depth + 1) i = some e ↔
    ∃ node r es, c.tree.get? i = some node ∧ nodes.resolution? i = some r ∧
      node.kind.valuePlaces.mapM (translate c nodes depth) = some es ∧
      compose c nodes node r es = some e := by
  simp only [translate, Option.bind_eq_bind, Option.bind_eq_some_iff]
  constructor
  · rintro ⟨node, hnode, r, hr, es, hes, he⟩
    exact ⟨node, r, es, hnode, hr, hes, he⟩
  · rintro ⟨node, r, es, hnode, hr, hes, he⟩
    exact ⟨node, hnode, r, hr, es, hes, he⟩

theorem translate_type (h : translate c nodes depth i = some e) :
    nodes.type? i = some e.site.ty := by
  cases depth with
  | zero => simp [translate] at h
  | succ depth =>
    obtain ⟨node, r, es, -, hr, -, he⟩ := translate_succ.mp h
    rw [compose_site he, NodeStates.type?, hr]
    rfl

/-! ## The size of the translation -/

theorem Exec.sizes_eq (es : List Exec) : Exec.sizes es = (es.map Exec.size).sum := by
  induction es with
  | nil => rfl
  | cons e es ih => rw [Exec.sizes, ih, List.map_cons, List.sum_cons]

theorem readAt_size (site : Site) (inner : Option Ty) {read : Site → Exec} {k : Nat}
    (h : ∀ site, (read site).size = k) : (readAt site inner read).size = k + inner.isSome.toNat := by
  cases inner with
  | none => exact h site
  | some ty => simp [readAt, Exec.size, h, Nat.add_comm]

theorem readPlain_size (site : Site) (id : SymbolId) (s : Symbol) :
    (readPlain site id s).size = 1 := by
  unfold readPlain
  split <;> rfl

theorem compose_size (h : compose c nodes node r es = some e) :
    e.size = 1 + node.kind.lacksElse.toNat + (innerType? c nodes node.kind r).isSome.toNat +
      (es.map Exec.size).sum := by
  obtain ⟨kind, span⟩ := node
  unfold compose at h
  dsimp only at h ⊢
  split at h
  case h_1 id hbinding =>
    obtain ⟨s, -, rfl⟩ := Option.map_eq_some_iff.mp h
    rw [readAt_size _ _ fun site => readPlain_size site _ s]
    simp [NodeKind.lacksElse]
  case h_7 object _ =>
    cases h
    rw [readAt_size (k := 1 + object.size) _ _ fun site => rfl]
    simp [NodeKind.lacksElse]
    omega
  all_goals cases h <;> simp [Exec.size, Exec.sizes_eq, NodeKind.lacksElse, innerType?]
  all_goals omega

/-- How many nodes of the executable form come from the given nodes of the tree. -/
def tally (c : Checked) (nodes : NodeStates) (is : List NodeIndex) : Nat :=
  is.countP (fun i => !c.tree.isTypeRef i) + (is.map (additions c nodes)).sum

theorem tally_append (is js : List NodeIndex) :
    tally c nodes (is ++ js) = tally c nodes is + tally c nodes js := by
  simp only [tally, List.countP_append, List.map_append, List.sum_append]
  omega

theorem tally_perm {is js : List NodeIndex} (h : is.Perm js) :
    tally c nodes is = tally c nodes js := by
  rw [tally, tally, h.countP_eq, (h.map _).sum_nat]

theorem tally_flatMap {cs : List NodeIndex} {f : NodeIndex → List NodeIndex}
    (h : List.Forall₂ (fun c' e => e.size = tally c nodes (f c')) cs es) :
    tally c nodes (cs.flatMap f) = (es.map Exec.size).sum := by
  induction h with
  | nil => rfl
  | cons he _ ih => rw [List.flatMap_cons, tally_append, ih, ← he, List.map_cons, List.sum_cons]

theorem additions_of_typeRef (h : c.tree.isTypeRef i = true) : additions c nodes i = 0 := by
  unfold additions
  split
  · rename_i node r hnode hr
    have hkind : node.kind.isTypeRef = true := by simpa [Tree.isTypeRef, Tree.kind?, hnode] using h
    cases hk : node.kind with
    | typeRef name args => simp [NodeKind.lacksElse, innerType?]
    | _ => simp [hk, NodeKind.isTypeRef] at hkind
  · rfl

theorem tally_typeRefs {is : List NodeIndex} (h : ∀ i ∈ is, c.tree.isTypeRef i = true) :
    tally c nodes is = 0 := by
  induction is with
  | nil => rfl
  | cons i is ih =>
    have hi := h i (by simp)
    have hrest := ih fun j hj => h j (by simp [hj])
    simp only [tally, List.countP_cons, List.map_cons, List.sum_cons] at hrest ⊢
    simp only [additions_of_typeRef hi, hi]
    simpa using hrest

theorem NodeKind.children_perm (kind : NodeKind) :
    kind.children.Perm (kind.typePlaces ++ kind.valuePlaces) := by
  cases kind with
  | typeTest operand target => exact List.Perm.swap target operand []
  | typeRef name args => simp [children, typePlaces, valuePlaces]
  | _ => exact List.Perm.refl _

theorem mapM_eq_some_iff {α β : Type} {f : α → Option β} {xs : List α} {ys : List β} :
    xs.mapM f = some ys ↔ List.Forall₂ (fun x y => f x = some y) xs ys := by
  induction xs generalizing ys with
  | nil => simp [eq_comm]
  | cons x xs ih =>
    simp only [List.mapM_cons, Option.bind_eq_bind, Option.bind_eq_some_iff, Option.pure_def,
      Option.some.injEq, List.forall₂_cons_left_iff, ih]
    constructor
    · rintro ⟨y, hy, ys, hys, rfl⟩
      exact ⟨y, ys, hy, hys, rfl⟩
    · rintro ⟨y, ys, hy, hys, rfl⟩
      exact ⟨y, hy, ys, hys, rfl⟩

theorem exists_mapM_of_mem {α β : Type} {f : α → Option β} {xs : List α} {ys : List β} {x : α}
    (h : xs.mapM f = some ys) (hx : x ∈ xs) : ∃ y ∈ ys, f x = some y :=
  Ty.exists_of_forall₂ (mapM_eq_some_iff.mp h) hx

theorem exists_of_mem_mapM {α β : Type} {f : α → Option β} {xs : List α} {ys : List β} {y : β}
    (h : xs.mapM f = some ys) (hy : y ∈ ys) : ∃ x ∈ xs, f x = some y :=
  Ty.exists_of_forall₂ (mapM_eq_some_iff.mp h).flip hy

theorem translate_size {root : NodeIndex} (htypes : c.tree.TypesInPlace root) (hi : c.tree.Reaches root i)
    (hbounded : c.tree.Bounded depth i) (h : translate c nodes depth i = some e) :
    e.size = tally c nodes (c.tree.preorder depth i) := by
  induction depth generalizing i e with
  | zero => simp [translate] at h
  | succ depth ih =>
    obtain ⟨node, r, es, hnode, hr, hes, he⟩ := translate_succ.mp h
    have hk := Tree.kind_of_get hnode
    have hchild : ∀ {c'}, c' ∈ node.kind.typePlaces ∨ c' ∈ node.kind.valuePlaces →
        c.tree.Child i c' := fun hc' =>
      (Tree.child_of_kind hk).mpr ((NodeKind.mem_children_iff _ _).mpr hc')
    have hrefs : tally c nodes (node.kind.typePlaces.flatMap (c.tree.preorder depth)) = 0 := by
      refine tally_typeRefs fun n hn => ?_
      obtain ⟨c', hc', hn⟩ := List.mem_flatMap.mp hn
      have hic := hchild (Or.inl hc')
      have hreach := ((Tree.mem_preorder_iff (hbounded c' hic)).mp hn).1
      exact htypes.below (hi.tail hic) ((htypes i _ hi hk).1 c' hc') hreach
    have hvalues : tally c nodes (node.kind.valuePlaces.flatMap (c.tree.preorder depth)) =
        (es.map Exec.size).sum := by
      have hmem : List.Forall₂ _ node.kind.valuePlaces es :=
        (List.forall₂_and_left _ _).mpr ⟨fun _ => id, mapM_eq_some_iff.mp hes⟩
      refine tally_flatMap (hmem.imp ?_)
      rintro c' e' ⟨hc', he'⟩
      have hic := hchild (Or.inr hc')
      exact ih (hi.tail hic) (hbounded c' hic) he'
    have hself : c.tree.isTypeRef i = false := by
      simp only [Tree.isTypeRef, hk, Option.map_some, Option.getD_some]
      exact compose_isTypeRef he
    rw [Tree.preorder, hnode]
    dsimp only
    rw [← List.singleton_append, tally_append, tally_perm (node.kind.children_perm.flatMap_right _),
      List.flatMap_append, tally_append, hrefs, hvalues, compose_size he]
    simp [tally, hself, additions, hnode, hr]
    omega

/-! ## What a generation marks -/

/-- The nodes below `cs` have been marked, and nothing else has changed. -/
structure NodeStates.Marked (t : Tree) (cs : List NodeIndex) (st st' : NodeStates) : Prop where
  step : ∀ n, st'.get? n = st.get? n ∨
    ∃ r, st.get? n = some (.typed r) ∧ st'.get? n = some (.generated r)
  below : ∀ c ∈ cs, ∀ n, t.Reaches c n → st'.isGenerated n = true
  others : ∀ n, (∀ c ∈ cs, ¬ t.Reaches c n) → st'.get? n = st.get? n

namespace NodeStates.Marked

variable {t : Tree} {st st' st'' : NodeStates} {cs ds : List NodeIndex}

theorem refl (t : Tree) (st : NodeStates) : Marked t [] st st :=
  ⟨fun _ => Or.inl rfl, by simp, fun _ _ => rfl⟩

theorem generated (h : Marked t cs st st') (hn : st.isGenerated n = true) :
    st'.isGenerated n = true := by
  rcases h.step n with hsame | ⟨r, -, hr⟩
  · rwa [isGenerated, hsame]
  · simp [isGenerated, hr, NodeState.isGenerated]

theorem trans (h : Marked t cs st st') (h' : Marked t ds st' st'') :
    Marked t (cs ++ ds) st st'' := by
  refine ⟨fun n => ?_, fun c hc n hn => ?_, fun n hn => ?_⟩
  · rcases h'.step n with hsame | ⟨r, hr, hr'⟩
    · rw [hsame]
      exact h.step n
    · rcases h.step n with hsame | ⟨r', -, hr''⟩
      · exact Or.inr ⟨r, hsame ▸ hr, hr'⟩
      · simp [hr''] at hr
  · rcases List.mem_append.mp hc with hc | hc
    · exact h'.generated (h.below c hc n hn)
    · exact h'.below c hc n hn
  · rw [h'.others n fun d hd => hn d (List.mem_append_right _ hd),
      h.others n fun c hc => hn c (List.mem_append_left _ hc)]

theorem parent (h : Marked t (t.children i) st st') (hi : st'.get? i = some (.typed r)) :
    Marked t [i] st (st'.set i (.generated r)) := by
  have hself := get?_set_self hi (.generated r)
  refine ⟨fun n => ?_, fun c hc n hn => ?_, fun n hn => ?_⟩
  · by_cases hin : i = n
    · subst hin
      rcases h.step i with hsame | ⟨r', -, hr'⟩
      · exact Or.inr ⟨r, hsame ▸ hi, hself⟩
      · simp [hi] at hr'
    · rw [get?_set_of_ne _ hin]
      exact h.step n
  · obtain rfl := List.mem_singleton.mp hc
    rcases hn.eq_or_above with rfl | habove
    · simp [isGenerated, hself, NodeState.isGenerated]
    · obtain ⟨c', hc', hn'⟩ := habove.first
      have hgenerated := h.below c' hc' n hn'
      by_cases hin : c = n
      · subst hin
        simp [isGenerated, hi, NodeState.isGenerated] at hgenerated
      · rwa [isGenerated, get?_set_of_ne _ hin]
  · have hnot := hn i (by simp)
    have hin : i ≠ n := by
      rintro rfl
      exact hnot (.refl t i)
    rw [get?_set_of_ne _ hin, h.others n fun c hc hcn => hnot (Tree.Child.reaches hc |>.trans hcn)]

theorem resolution (h : Marked t cs st st') (n : NodeIndex) :
    st'.resolution? n = st.resolution? n := by
  rcases h.step n with hsame | ⟨r, hr, hr'⟩
  · rw [resolution?, hsame, resolution?]
  · rw [resolution?, resolution?, hr, hr']
    rfl

theorem scopes (h : Marked t cs st st') (n : NodeIndex) : st'.scopes? n = st.scopes? n := by
  rcases h.step n with hsame | ⟨r, hr, hr'⟩
  · rw [scopes?, hsame, scopes?]
  · rw [scopes?, scopes?, hr, hr']
    rfl

end NodeStates.Marked

/-! ## A generation gives the translation -/

namespace Generate

variable {α β : Type} {cs ds : List NodeIndex} {P : α → Prop} {Q : β → Prop} {st : NodeStates}
  {t : Tree}

/-- `m` marks the nodes below `cs`, as long as what is recorded is in `nodes`, and gives a result
with the property `P`, unless it fails. -/
def Yields (t : Tree) (nodes : NodeStates) (cs : List NodeIndex) (m : Generate α) (P : α → Prop) :
    Prop :=
  ∀ st, (∀ n, st.resolution? n = nodes.resolution? n) →
    m.After st (fun a st' => P a ∧ st.Marked t cs st') fun _ => True

namespace Yields

theorem pure {a : α} (ha : P a) : Yields t nodes [] (Pure.pure a) P :=
  fun st _ => ⟨ha, .refl t st⟩

theorem throw (e : GenerateError) : Yields t nodes cs (MonadExcept.throw e : Generate α) P :=
  fun _ _ => trivial

theorem imp {m : Generate α} {P' : α → Prop} (hm : Yields t nodes cs m P)
    (h : ∀ a, P a → P' a) : Yields t nodes cs m P' :=
  fun st hst => (hm st hst).mono (fun a _ ha => ⟨h a ha.1, ha.2⟩) fun _ => id

theorem bind {m : Generate α} {k : α → Generate β} (hm : Yields t nodes cs m P)
    (hk : ∀ a, P a → Yields t nodes ds (k a) Q) : Yields t nodes (cs ++ ds) (m >>= k) Q := by
  intro st hst
  rw [after_bind]
  refine (hm st hst).mono ?_ fun _ => id
  rintro a st1 ⟨ha, hmarked⟩
  refine (hk a ha st1 fun n => (hmarked.resolution n).trans (hst n)).mono ?_ fun _ => id
  rintro b st2 ⟨hb, hmarked'⟩
  exact ⟨hb, hmarked.trans hmarked'⟩

theorem map {m : Generate α} (hm : Yields t nodes cs m P) (g : α → β) (hg : ∀ a, P a → Q (g a)) :
    Yields t nodes cs (m >>= fun a => Pure.pure (g a)) Q := by
  have hpure : ∀ a, P a → Yields t nodes [] (Pure.pure (g a)) Q := fun a ha => .pure (hg a ha)
  have h := hm.bind hpure
  rwa [List.append_nil] at h

theorem mapM {visit : NodeIndex → Generate α} {R : NodeIndex → α → Prop}
    (h : ∀ c ∈ cs, Yields t nodes [c] (visit c) (R c)) :
    Yields t nodes cs (cs.mapM visit) (List.Forall₂ R cs) := by
  induction cs with
  | nil => exact Yields.pure .nil
  | cons c cs ih =>
    rw [List.mapM_cons]
    exact (h c (by simp)).bind fun a ha =>
      (ih fun d hd => h d (by simp [hd])).map _ fun as has => .cons ha has

theorem forM {visit : NodeIndex → Generate PUnit}
    (h : ∀ c ∈ cs, Yields t nodes [c] (visit c) fun _ => True) :
    Yields t nodes cs (cs.forM visit) fun _ => True := by
  induction cs with
  | nil => exact Yields.pure trivial
  | cons c cs ih => exact (h c (by simp)).bind fun _ _ => ih fun d hd => h d (by simp [hd])

end Yields

theorem finish_marked {st' : NodeStates} (h : st.Marked t (t.children i) st') :
    (finish i).After st' (fun _ st'' => st.Marked t [i] st'') fun _ => True := by
  simp only [finish, NodeStates.markGenerated?, after_bind, after_get]
  cases hi : st'.get? i with
  | none => trivial
  | some state =>
    cases state with
    | typed r => exact h.parent hi
    | _ => trivial

theorem readSymbol_yields (name : String) (span : Span) {id : SymbolId}
    (hbinding : r.binding = .symbol id) :
    Yields t nodes [] (readSymbol c ⟨r.ty, span⟩ id) fun e =>
      compose c nodes ⟨.identifier name, span⟩ r [] = some e := by
  unfold readSymbol
  split
  · exact .throw _
  · rename_i s hs
    split
    · rename_i hnarrowed
      dsimp only
      split
      · exact .throw _
      · rename_i base hbase
        refine .pure ?_
        simp [compose, innerType?, hbinding, hs, hbase, hnarrowed, readAt]
    · rename_i hplain
      have hself : c.table.unnarrowed id = id := by
        refine SymbolTable.unnarrowedWithin_self (fun name o g hsym => hplain ?_) _
        rw [hs] at hsym
        cases hsym
        rfl
      refine .pure ?_
      simp [compose, innerType?, hbinding, hs, hself, hplain, readAt]

theorem readMember_eq {object : NodeIndex} {name : String} (span : Span) (member : Member)
    (hobject : nodes.type? object = some e.site.ty) :
    readMember c.definitions ⟨r.ty, span⟩ e name member =
      readAt ⟨r.ty, span⟩ (innerType? c nodes (.memberAccess object name) r)
        (.memberRead · e member) := by
  simp only [readMember, innerType?, declaredMemberType?, hobject]
  cases hty : e.site.ty with
  | nominal id _ args =>
    cases args with
    | none => rfl
    | some args =>
      dsimp only
      rcases c.definitions.findMembers (c.definitions.selfInstance id) name with
        _ | ⟨declared, _ | _⟩
      · rfl
      · dsimp only
        split <;> rfl
      · rfl
  | _ => rfl

theorem generateKind_yields {generate : NodeIndex → Generate Exec}
    {mark : NodeIndex → Generate Unit}
    (hgenerate : ∀ c' ∈ node.kind.valuePlaces, Yields c.tree nodes [c'] (generate c')
      fun e => translate c nodes depth c' = some e)
    (hmark : ∀ c' ∈ node.kind.typePlaces, Yields c.tree nodes [c'] (mark c') fun _ => True) :
    Yields c.tree nodes node.kind.children
      (generateKind c generate mark i ⟨r.ty, node.span⟩ node.kind r.binding)
      fun e => ∃ es, node.kind.valuePlaces.mapM (translate c nodes depth) = some es ∧
        compose c nodes node r es = some e := by
  obtain ⟨kind, span⟩ := node
  dsimp only at hgenerate hmark ⊢
  simp only [mapM_eq_some_iff]
  cases kind with
  | identifier name =>
    cases hbinding : r.binding with
    | symbol id =>
      simp only [generateKind]
      exact (readSymbol_yields name span hbinding).imp fun e he => ⟨[], .nil, he⟩
    | _ => exact .throw _
  | literal value => exact .pure ⟨[], .nil, rfl⟩
  | collection elements =>
    simp only [generateKind]
    exact (Yields.mapM hgenerate).map _ fun es hes => ⟨es, hes, rfl⟩
  | conditional condition thenBranch elseBranch =>
    simp only [generateKind]
    refine (hgenerate condition (by simp [NodeKind.valuePlaces, NodeKind.children])).bind
      fun test htest => ?_
    refine (hgenerate thenBranch (by simp [NodeKind.valuePlaces, NodeKind.children])).bind
      fun yes hyes => ?_
    cases elseBranch with
    | none => exact .pure ⟨[test, yes], .cons htest (.cons hyes .nil), rfl⟩
    | some e =>
      exact (hgenerate e (by simp [NodeKind.valuePlaces, NodeKind.children])).map _
        fun no hno => ⟨[test, yes, no], .cons htest (.cons hyes (.cons hno .nil)), rfl⟩
  | invocation callee arguments trailing =>
    cases hbinding : r.binding with
    | call signature =>
      simp only [generateKind]
      refine (hgenerate callee (by simp [NodeKind.valuePlaces, NodeKind.children])).bind
        fun target htarget => (Yields.mapM fun c' hc' => hgenerate c' ?_).map _
          fun es hes => ⟨target :: es, .cons htarget hes, ?_⟩
      · exact List.mem_cons_of_mem _ hc'
      · simp only [compose, hbinding]
    | _ => exact .throw _
  | memberAccess object name =>
    cases hbinding : r.binding with
    | member found =>
      simp only [generateKind]
      refine (hgenerate object (by simp [NodeKind.valuePlaces, NodeKind.children])).map _
        fun e he => ⟨[e], .cons he .nil, ?_⟩
      simp only [compose, hbinding, readMember_eq span found (translate_type he)]
    | _ => exact .throw _
  | lambda params body =>
    cases hbinding : r.binding with
    | lambda bound =>
      simp only [generateKind]
      refine (Yields.forM hmark).bind fun _ _ =>
        (hgenerate body (by simp [NodeKind.valuePlaces])).map _
          fun e he => ⟨[e], .cons he .nil, ?_⟩
      simp only [compose, hbinding]
    | _ => exact .throw _
  | typeTest operand target =>
    cases hbinding : r.binding with
    | typeTest asserted =>
      simp only [generateKind]
      refine (hgenerate operand (by simp [NodeKind.valuePlaces])).bind fun e he =>
        (hmark target (by simp [NodeKind.typePlaces])).map _ fun _ _ => ⟨[e], .cons he .nil, ?_⟩
      simp only [compose, hbinding]
    | _ => exact .throw _
  | conjunction left right =>
    simp only [generateKind]
    exact (hgenerate left (by simp [NodeKind.valuePlaces, NodeKind.children])).bind
      fun first hfirst => (hgenerate right (by simp [NodeKind.valuePlaces, NodeKind.children])).map _
        fun second hsecond => ⟨[first, second], .cons hfirst (.cons hsecond .nil), rfl⟩
  | block statements =>
    simp only [generateKind]
    exact (Yields.mapM hgenerate).map _ fun es hes => ⟨es, hes, rfl⟩
  | declaration name isConst ascription initializer =>
    cases hbinding : r.binding with
    | declaration id =>
      simp only [generateKind]
      refine (Yields.forM hmark).bind fun _ _ =>
        (hgenerate initializer (by simp [NodeKind.valuePlaces])).map _
          fun e he => ⟨[e], .cons he .nil, ?_⟩
      simp only [compose, hbinding]
    | _ => exact .throw _
  | assignment target value =>
    cases hbinding : r.binding with
    | assignment id =>
      simp only [generateKind]
      refine (hgenerate target (by simp [NodeKind.valuePlaces, NodeKind.children])).bind
        fun first hfirst =>
          (hgenerate value (by simp [NodeKind.valuePlaces, NodeKind.children])).map _
            fun second hsecond => ⟨[first, second], .cons hfirst (.cons hsecond .nil), ?_⟩
      simp only [compose, hbinding]
    | _ => exact .throw _
  | typeRef name args => exact .throw _

variable {root : NodeIndex}

theorem markTypeRef_yields (hp : c.tree.Proper root) (htypes : c.tree.TypesInPlace root)
    (hi : c.tree.Reaches root i) (htype : c.tree.isTypeRef i = true)
    (hdepth : c.tree.extent i ≤ depth) :
    Yields c.tree nodes [i] (markTypeRef c depth i) fun _ => True := by
  induction depth generalizing i with
  | zero => exact absurd (hp.extent_pos hi) (by omega)
  | succ depth ih =>
    obtain ⟨node, hnode⟩ := hp.present hi
    have hk := Tree.kind_of_get hnode
    unfold markTypeRef
    cases hkind : node.kind with
    | typeRef name args =>
      rw [hkind] at hk
      simp only [hk]
      have hargs : Yields c.tree nodes (c.tree.children i)
          (args.forM (markTypeRef c depth)) fun _ => True := by
        rw [Tree.children_of_kind hk]
        refine Yields.forM fun c' hc' => ?_
        have hic : c.tree.Child i c' := (Tree.child_of_kind hk).mpr hc'
        have hlt := hp.extent_lt hi hic
        exact ih (hi.tail hic) ((htypes i _ hi hk).1 c' hc') (by omega)
      intro st hst
      rw [after_bind]
      refine (hargs st hst).mono ?_ fun _ => id
      rintro - st1 ⟨-, hmarked⟩
      exact (finish_marked hmarked).mono (fun _ _ h => ⟨trivial, h⟩) fun _ => id
    | _ => simp [Tree.isTypeRef, hk, hkind, NodeKind.isTypeRef] at htype

theorem generateWithin_yields (hp : c.tree.Proper root) (htypes : c.tree.TypesInPlace root)
    (hi : c.tree.Reaches root i) (hdepth : c.tree.extent i ≤ depth) :
    Yields c.tree nodes [i] (generateWithin c depth i)
      fun e => translate c nodes depth i = some e := by
  induction depth generalizing i with
  | zero => exact absurd (hp.extent_pos hi) (by omega)
  | succ depth ih =>
    obtain ⟨node, hnode⟩ := hp.present hi
    have hk := Tree.kind_of_get hnode
    have hbelow : ∀ {c'}, c' ∈ node.kind.typePlaces ∨ c' ∈ node.kind.valuePlaces →
        c.tree.Reaches root c' ∧ c.tree.extent c' ≤ depth := by
      intro c' hc'
      have hic : c.tree.Child i c' :=
        (Tree.child_of_kind hk).mpr ((NodeKind.mem_children_iff _ _).mpr hc')
      have hlt := hp.extent_lt hi hic
      exact ⟨hi.tail hic, by omega⟩
    intro st hst
    unfold generateWithin
    simp only [typed, after_bind, after_get, hnode]
    cases htyped : st.get? i with
    | none => trivial
    | some state =>
      cases state with
      | typed r =>
        have hr : nodes.resolution? i = some r := by
          rw [← hst i, NodeStates.resolution?, htyped]
          rfl
        have hkind : Yields c.tree nodes (c.tree.children i) (generateKind c (generateWithin c depth)
            (markTypeRef c depth) i ⟨r.ty, node.span⟩ node.kind r.binding)
            fun e => ∃ es, node.kind.valuePlaces.mapM (translate c nodes depth) = some es ∧
              compose c nodes node r es = some e := by
          rw [Tree.children_of_kind hk]
          refine generateKind_yields (fun c' hc' => ?_) fun c' hc' => ?_
          · exact ih (hbelow (Or.inr hc')).1 (hbelow (Or.inr hc')).2
          · exact markTypeRef_yields hp htypes (hbelow (Or.inl hc')).1
              ((htypes i _ hi hk).1 c' hc') (hbelow (Or.inl hc')).2
        dsimp only
        rw [after_pure]
        refine (hkind st hst).mono ?_ fun _ => id
        rintro e st1 ⟨⟨es, hes, he⟩, hmarked⟩
        refine (finish_marked hmarked).mono (fun _ _ h => ⟨?_, h⟩) fun _ => id
        exact translate_succ.mpr ⟨node, r, es, hnode, hr, hes, he⟩
      | _ => trivial

end Generate

/-! ## Parts of a translation -/

namespace Exec

/-- `x` is a part of `e`, below the nodes of the path; the outermost comes first. -/
inductive Encloses : Exec → List Exec → Exec → Prop
  | here (e : Exec) : Encloses e [] e
  | inside {e child x : Exec} {path : List Exec} (hchild : child ∈ e.children)
      (h : Encloses child path x) : Encloses e (e :: path) x

def isRead : Exec → Bool
  | hostValue .. => true
  | localValue .. => true
  | memberRead .. => true
  | _ => false

end Exec

theorem readPlain_isRead (site : Site) (id : SymbolId) (s : Symbol) :
    (readPlain site id s).isRead = true ∧ (readPlain site id s).children = [] := by
  unfold readPlain
  split <;> exact ⟨rfl, rfl⟩

theorem readAt_children (site : Site) (inner : Option Ty) {read : Site → Exec}
    (h : ∀ site, (read site).isRead = true ∧ (read site).children = es) :
    (readAt site inner read).children = es ∨
      ∃ x, readAt site inner read = .convert site x ∧ x.isRead = true ∧ x.children = es := by
  cases inner with
  | none => exact Or.inl (h site).2
  | some ty => exact Or.inr ⟨_, rfl, h _⟩

/-- Below a node there are the translations of its children, and what is added. -/
theorem compose_children (h : compose c nodes node r es = some e) :
    e.children = es ∨ (∃ site, e.children = es ++ [.constant site .null]) ∨
      ∃ site x, e = .convert site x ∧ x.isRead = true ∧ x.children = es := by
  unfold compose at h
  dsimp only at h
  split at h
  case h_1 =>
    obtain ⟨s, -, rfl⟩ := Option.map_eq_some_iff.mp h
    refine (readAt_children _ _ fun site => ?_).imp_right fun ⟨x, hx⟩ => Or.inr ⟨_, x, hx⟩
    exact readPlain_isRead site _ s
  case h_5 => cases h; exact Or.inr (Or.inl ⟨_, rfl⟩)
  case h_7 =>
    cases h
    refine (readAt_children _ _ fun site => ?_).imp_right fun ⟨x, hx⟩ => Or.inr ⟨_, x, hx⟩
    exact ⟨rfl, rfl⟩
  all_goals cases h <;> exact Or.inl rfl

theorem compose_encloses {path : List Exec} {x : Exec} (h : compose c nodes node r es = some e)
    (hx : e.Encloses path x) :
    x = e ∨ (∃ child ∈ es, ∃ rest, child.Encloses rest x ∧ e ∈ path ∧ rest ⊆ path) ∨
      (∃ site, x = .constant site .null) ∨ ∃ site, e = .convert site x ∧ x.isRead = true := by
  cases hx with
  | here => exact Or.inl rfl
  | @inside _ child _ path hchild hx =>
    rcases compose_children h with hes | ⟨site, hes⟩ | ⟨site, read, rfl, hread, hes⟩
    · rw [hes] at hchild
      exact Or.inr (Or.inl ⟨child, hchild, path, hx, by simp, by simp⟩)
    · rw [hes] at hchild
      rcases List.mem_append.mp hchild with hchild | hchild
      · exact Or.inr (Or.inl ⟨child, hchild, path, hx, by simp, by simp⟩)
      · rw [List.mem_singleton.mp hchild] at hx
        cases hx with
        | here => exact Or.inr (Or.inr (Or.inl ⟨site, rfl⟩))
        | inside hnone => cases hnone
    · obtain rfl := List.mem_singleton.mp hchild
      cases hx with
      | here => exact Or.inr (Or.inr (Or.inr ⟨site, rfl, hread⟩))
      | @inside _ child' _ path hchild' hx =>
        rw [hes] at hchild'
        exact Or.inr (Or.inl ⟨child', hchild', path, hx, by simp, by intro y hy; simp [hy]⟩)

/-! ## After a check -/

def CheckResult.checked (result : CheckResult) (ctx : Context) (table : SymbolTable) : Checked :=
  ⟨ctx.tree, ctx.env.definitions, table, result.symbolTypes⟩

variable {ctx : Context} {root : NodeIndex} {σ : ScopeId} {expected : Option Ty}
  {table symbols : SymbolTable} {result result' : CheckResult}

theorem generate_yields (hp : ctx.tree.Proper root) (htypes : ctx.tree.TypesInPlace root)
    (h : result.generate ctx.tree ctx.env symbols root = (.ok e, result')) :
    translate (result.checked ctx symbols) result.nodes (ctx.tree.size + 1) root = some e ∧
      result.nodes.Marked ctx.tree [root] result'.nodes ∧
      result' = { result with nodes := result'.nodes } := by
  have hdepth : ctx.tree.extent root ≤ ctx.tree.size + 1 :=
    Nat.le_succ_of_le (ctx.tree.extent_le_size root)
  have hyields := generateWithin_yields (c := result.checked ctx symbols) hp htypes
    (.refl _ root) hdepth result.nodes fun _ => rfl
  have hrun : (generate (result.checked ctx symbols) root).run.run result.nodes =
      (.ok e, result'.nodes) ∧ result' = { result with nodes := result'.nodes } := by
    obtain ⟨hexec, rfl⟩ := Prod.mk.inj h
    exact ⟨Prod.ext hexec rfl, rfl⟩
  rcases hyields.cases with ⟨e', st', heq, he', hmarked⟩ | ⟨e', st', heq, -⟩
  · cases heq.symm.trans hrun.1
    exact ⟨he', hmarked, hrun.2⟩
  · cases heq.symm.trans hrun.1

/-- What a generation gives is the translation of the checked tree: a node for each expression and
the additions. Afterwards the nodes below the root are marked, and all that was recorded is still
there. -/
theorem generation_mirrors_tree (hp : ctx.tree.Proper root) (htypes : ctx.tree.TypesInPlace root)
    (hcheck : (check ctx table root σ expected).1 = result)
    (hgenerate : result.generate ctx.tree ctx.env symbols root = (.ok e, result')) :
    translate (result.checked ctx symbols) result.nodes (ctx.tree.size + 1) root = some e ∧
    e.size = (ctx.tree.descendants root).countP (fun n => !ctx.tree.isTypeRef n) +
      ((ctx.tree.descendants root).map
        (additions (result.checked ctx symbols) result.nodes)).sum ∧
    (∀ n, result'.nodes.isGenerated n = true ↔ n ∈ ctx.tree.descendants root) ∧
    (∀ n, result'.nodes.scopes? n = result.nodes.scopes? n ∧
      result'.nodes.resolution? n = result.nodes.resolution? n) ∧
    result' = { result with nodes := result'.nodes } := by
  obtain ⟨htranslate, hmarked, hrest⟩ := generate_yields hp htypes hgenerate
  have hacyclic := hp.acyclicBelow
  refine ⟨htranslate, ?_, fun n => ?_, fun n => ⟨hmarked.scopes n, hmarked.resolution n⟩, hrest⟩
  · have hsize := translate_size (c := result.checked ctx symbols) htypes (.refl _ root)
      hacyclic.bounded_size htranslate
    rw [hacyclic.descendants_eq]
    exact hsize
  · rw [hacyclic.mem_descendants_iff]
    refine ⟨fun hn => ?_, fun hn => hmarked.below root (by simp) n hn.1⟩
    by_contra hspans
    have hnot : ¬ ctx.tree.Reaches root n := fun hreach => hspans ⟨hreach, hp.present hreach⟩
    obtain ⟨hconfined, -⟩ : (Check.checkRoot ctx root σ expected).After (.start ctx table) _ :=
      checkRoot_covers hacyclic
    have hsame : result.nodes.get? n = (NodeStates.initial ctx.tree.size).get? n := by
      rw [← hcheck]
      exact hconfined.others hspans
    rw [NodeStates.isGenerated, hmarked.others n (by simpa using hnot), hsame, NodeStates.initial,
      NodeStates.get?, Array.getElem?_replicate] at hn
    split at hn <;> simp [NodeState.isGenerated] at hn

/-- `if (v is string) [v].filter`, with a `v` given by the host. -/
def filterContext : Context where
  env := .initial
  options := {}
  tree := ⟨#[⟨.identifier "v", Span.empty⟩, ⟨.typeRef "string" [], Span.empty⟩,
    ⟨.typeTest 0 1, Span.empty⟩, ⟨.identifier "v", Span.empty⟩, ⟨.collection [3], Span.empty⟩,
    ⟨.memberAccess 4 "filter", Span.empty⟩, ⟨.conditional 2 5 none, Span.empty⟩]⟩

theorem filter_of_narrowed_adds_three :
    ∃ e result', (check filterContext guardedTable 6 0 none).1.generate filterContext.tree
        filterContext.env (check filterContext guardedTable 6 0 none).2 6 = (.ok e, result') ∧
      e.size = 6 + 3 := by
  have hp : filterContext.tree.Proper 6 := by
    apply Tree.Proper.of_slots <;> decide
  have htypes : filterContext.tree.TypesInPlace 6 := by
    apply Tree.TypesInPlace.of_nodes
    decide
  have hok : ((check filterContext guardedTable 6 0 none).1.generate filterContext.tree
      filterContext.env (check filterContext guardedTable 6 0 none).2 6).1.isOk = true := by
    decide +kernel
  have hadditions : ((filterContext.tree.descendants 6).map (additions
      ((check filterContext guardedTable 6 0 none).1.checked filterContext
        (check filterContext guardedTable 6 0 none).2)
      (check filterContext guardedTable 6 0 none).1.nodes)).sum = 3 := by
    decide +kernel
  rcases hgenerate : (check filterContext guardedTable 6 0 none).1.generate filterContext.tree
    filterContext.env (check filterContext guardedTable 6 0 none).2 6 with ⟨_ | e, result'⟩
  · simp [hgenerate, Except.isOk, Except.toBool] at hok
  · refine ⟨e, result', rfl, ?_⟩
    rw [(generation_mirrors_tree hp htypes rfl hgenerate).2.1, hadditions]
    decide +kernel

end ScriptTyping
