import Mathlib.Data.Finset.Card
import Mathlib.Data.Finset.Range
import Mathlib.Data.List.Pairwise
import Mathlib.Logic.Relation
import ScriptTyping.Tree.Basic

/-!
# Ancestors in a tree

A tree is proper below a root if every index that the root reaches is a node, and every such node
fills exactly one slot of one parent. Ancestors of a node then stand in one line, and the subtrees
of two siblings have nothing in common.
-/

namespace ScriptTyping

namespace NodeKind

/-- The children that have to be type references. -/
def typePlaces : NodeKind → List NodeIndex
  | lambda params _ => params.filterMap (·.ascription)
  | typeTest _ target => [target]
  | declaration _ _ ascription _ => ascription.toList
  | typeRef _ args => args
  | _ => []

/-- The children that have to be expressions or statements. -/
def valuePlaces : NodeKind → List NodeIndex
  | lambda _ body => [body]
  | typeTest operand _ => [operand]
  | declaration _ _ _ initializer => [initializer]
  | typeRef .. => []
  | kind => kind.children

def isDeclaration : NodeKind → Bool
  | declaration .. => true
  | _ => false

theorem mem_children_iff (kind : NodeKind) (c : NodeIndex) :
    c ∈ kind.children ↔ c ∈ kind.typePlaces ∨ c ∈ kind.valuePlaces := by
  cases kind <;> simp [children, typePlaces, valuePlaces, or_comm]

end NodeKind

namespace Tree

variable {t : Tree} {root a b c d n p q : NodeIndex}

def Child (t : Tree) (p c : NodeIndex) : Prop := c ∈ t.children p

/-- `n` is `a` or stands below it. -/
def Reaches (t : Tree) (a n : NodeIndex) : Prop := Relation.ReflTransGen t.Child a n

/-- `a` stands strictly above `n`. -/
def Above (t : Tree) (a n : NodeIndex) : Prop := Relation.TransGen t.Child a n

/-- Every index that `root` reaches is a node, and fills one slot of one parent, or is `root`. -/
structure Proper (t : Tree) (root : NodeIndex) : Prop where
  present : ∀ {i}, t.Reaches root i → ∃ node, t.get? i = some node
  one_parent : ∀ {p q c}, t.Reaches root p → t.Reaches root q → t.Child p c → t.Child q c → p = q
  one_slot : ∀ {p}, t.Reaches root p → (t.children p).Nodup
  root_free : ∀ {p}, t.Reaches root p → ¬ t.Child p root

def isTypeRef (t : Tree) (i : NodeIndex) : Bool := ((t.kind? i).map (·.isTypeRef)).getD false

def isDeclaration (t : Tree) (i : NodeIndex) : Bool :=
  ((t.kind? i).map (·.isDeclaration)).getD false

theorem isDeclaration_iff {t : Tree} {i : NodeIndex} :
    t.isDeclaration i = true ↔ ∃ name isConst ascription initializer,
      t.kind? i = some (.declaration name isConst ascription initializer) := by
  unfold isDeclaration
  cases t.kind? i with
  | none => simp
  | some kind => cases kind <;> simp [NodeKind.isDeclaration]

/-- Type references stand exactly where types are written. -/
def TypesInPlace (t : Tree) (root : NodeIndex) : Prop :=
  ∀ p kind, t.Reaches root p → t.kind? p = some kind →
    (∀ c ∈ kind.typePlaces, t.isTypeRef c = true) ∧ ∀ c ∈ kind.valuePlaces, t.isTypeRef c = false

/-! ## Paths -/

theorem kind_of_get {i : NodeIndex} {node : Node} (h : t.get? i = some node) :
    t.kind? i = some node.kind := by
  rw [kind?, h]; rfl

theorem lt_size_of_get {i : NodeIndex} {node : Node} (h : t.get? i = some node) : i < t.size := by
  unfold get? at h
  split at h
  · simp at h
  · exact (Array.getElem?_eq_some_iff.mp h).choose

theorem children_of_kind {i : NodeIndex} {kind : NodeKind} (h : t.kind? i = some kind) :
    t.children i = kind.children := by
  rw [children, h]; rfl

theorem child_of_kind {i : NodeIndex} {kind : NodeKind} (h : t.kind? i = some kind) :
    t.Child i c ↔ c ∈ kind.children := by
  rw [Child, children_of_kind h]

theorem kind_of_child (h : t.Child p c) : ∃ kind, t.kind? p = some kind ∧ c ∈ kind.children := by
  cases hk : t.kind? p with
  | none => simp [Child, children, hk] at h
  | some kind => exact ⟨kind, rfl, (child_of_kind hk).mp h⟩

theorem Reaches.refl (t : Tree) (a : NodeIndex) : t.Reaches a a := Relation.ReflTransGen.refl

theorem Reaches.trans (h : t.Reaches a b) (h' : t.Reaches b c) : t.Reaches a c :=
  Relation.ReflTransGen.trans h h'

theorem Child.reaches (h : t.Child p c) : t.Reaches p c := Relation.ReflTransGen.single h

theorem Child.above (h : t.Child p c) : t.Above p c := Relation.TransGen.single h

theorem Above.reaches (h : t.Above a n) : t.Reaches a n := Relation.TransGen.to_reflTransGen h

theorem Above.trans (h : t.Above a b) (h' : t.Above b c) : t.Above a c :=
  Relation.TransGen.trans h h'

theorem Above.trans_reaches (h : t.Above a b) (h' : t.Reaches b c) : t.Above a c :=
  Relation.TransGen.trans_left h h'

theorem Reaches.trans_above (h : t.Reaches a b) (h' : t.Above b c) : t.Above a c :=
  Relation.TransGen.trans_right h h'

theorem Reaches.eq_or_above (h : t.Reaches a n) : n = a ∨ t.Above a n :=
  Relation.reflTransGen_iff_eq_or_transGen.mp h

theorem Above.parent (h : t.Above a n) : ∃ p, t.Reaches a p ∧ t.Child p n :=
  Relation.TransGen.tail'_iff.mp h

theorem Above.first (h : t.Above a n) : ∃ c, t.Child a c ∧ t.Reaches c n :=
  Relation.TransGen.head'_iff.mp h

/-! ## Proper trees -/

namespace Proper

theorem lt_size (h : t.Proper root) (hn : t.Reaches root n) : n < t.size := by
  obtain ⟨node, hnode⟩ := h.present hn
  exact lt_size_of_get hnode

theorem reaches_parent (h : t.Proper root) (ha : t.Reaches root a) (hp : t.Reaches root p)
    (hc : t.Child p c) (hac : t.Above a c) : t.Reaches a p := by
  obtain ⟨q, haq, hqc⟩ := hac.parent
  rw [h.one_parent hp (ha.trans haq) hc hqc]
  exact haq

/-- Going up from a node on a circle stays on the circle, but the way up ends at the root. -/
theorem acyclic (h : t.Proper root) (hn : t.Reaches root n) : ¬ t.Above n n := by
  induction hn with
  | refl =>
    intro hloop
    obtain ⟨p, hp, hpr⟩ := hloop.parent
    exact h.root_free hp hpr
  | @tail p c hp hpc ih =>
    intro hloop
    have hcp : t.Reaches c p := h.reaches_parent (hp.tail hpc) hp hpc hloop
    exact ih ((Child.above hpc).trans_reaches hcp)

theorem not_reaches_of_above (h : t.Proper root) (ha : t.Reaches root a) (hac : t.Above a c) :
    ¬ t.Reaches c a := fun hca => h.acyclic ha (hac.trans_reaches hca)

theorem linear (h : t.Proper root) (ha : t.Reaches root a) (hb : t.Reaches root b)
    (han : t.Reaches a n) (hbn : t.Reaches b n) : t.Reaches a b ∨ t.Reaches b a := by
  induction han with
  | refl => exact Or.inr hbn
  | @tail p c hap hpc ih =>
    rcases hbn.eq_or_above with rfl | hbc
    · exact Or.inl (hap.tail hpc)
    · exact ih (h.reaches_parent hb (ha.trans hap) hpc hbc)

theorem eq_of_siblings (h : t.Proper root) (hp : t.Reaches root p) (hc : t.Child p c)
    (hd : t.Child p d) (hcd : t.Reaches c d) : c = d := by
  rcases hcd.eq_or_above with heq | habove
  · exact heq.symm
  · have hcp : t.Reaches c p := h.reaches_parent (hp.tail hc) hp hd habove
    exact absurd hcp (h.not_reaches_of_above hp (Child.above hc))

theorem siblings_apart (h : t.Proper root) (hp : t.Reaches root p) (hc : t.Child p c)
    (hd : t.Child p d) (hcn : t.Reaches c n) (hdn : t.Reaches d n) : c = d := by
  rcases h.linear (hp.tail hc) (hp.tail hd) hcn hdn with hcd | hdc
  · exact h.eq_of_siblings hp hc hd hcd
  · exact (h.eq_of_siblings hp hd hc hdc).symm

theorem above_of_child (h : t.Proper root) (hp : t.Reaches root p) (hc : t.Child p c)
    (ha : t.Reaches root a) (hac : t.Above a c) : a = p ∨ t.Above a p := by
  rcases (h.reaches_parent ha hp hc hac).eq_or_above with heq | habove
  · exact Or.inl heq.symm
  · exact Or.inr habove

section Kind

variable {kind kind' : NodeKind}

theorem children_nodup (h : t.Proper root) (hp : t.Reaches root p) (hk : t.kind? p = some kind) :
    kind.children.Nodup :=
  children_of_kind hk ▸ h.one_slot hp

theorem root_notMem (h : t.Proper root) (hp : t.Reaches root p) (hk : t.kind? p = some kind) :
    root ∉ kind.children := fun hroot => h.root_free hp ((child_of_kind hk).mpr hroot)

theorem parent_unique (h : t.Proper root) (hp : t.Reaches root p) (hq : t.Reaches root q)
    (hk : t.kind? p = some kind) (hk' : t.kind? q = some kind') (hc : c ∈ kind.children)
    (hc' : c ∈ kind'.children) : p = q ∧ kind = kind' := by
  obtain rfl := h.one_parent hp hq ((child_of_kind hk).mpr hc) ((child_of_kind hk').mpr hc')
  exact ⟨rfl, Option.some.inj (hk.symm.trans hk')⟩

end Kind

end Proper

/-! ## Type references -/

namespace TypesInPlace

theorem child (h : t.TypesInPlace root) (hp : t.Reaches root p) (htype : t.isTypeRef p = true)
    (hc : t.Child p c) : t.isTypeRef c = true := by
  obtain ⟨kind, hk, hmem⟩ := kind_of_child hc
  cases kind with
  | typeRef name args => exact (h p _ hp hk).1 c hmem
  | _ => simp [isTypeRef, hk, NodeKind.isTypeRef] at htype

theorem below (h : t.TypesInPlace root) (hp : t.Reaches root p) (htype : t.isTypeRef p = true)
    (hn : t.Reaches p n) : t.isTypeRef n = true := by
  induction hn with
  | refl => exact htype
  | tail hm hc ih => exact h.child (hp.trans hm) ih hc

end TypesInPlace

/-! ## How much a node reaches -/

open Classical in
/-- The number of places in the tree that a node reaches. -/
noncomputable def extent (t : Tree) (i : NodeIndex) : Nat :=
  ((Finset.range t.size).filter (t.Reaches i)).card

theorem extent_le_size (t : Tree) (i : NodeIndex) : t.extent i ≤ t.size := by
  classical
  calc t.extent i ≤ (Finset.range t.size).card := Finset.card_filter_le _ _
    _ = t.size := Finset.card_range _

theorem Proper.extent_pos (h : t.Proper root) (hn : t.Reaches root n) : 0 < t.extent n := by
  classical
  apply Finset.card_pos.mpr
  exact ⟨n, Finset.mem_filter.mpr ⟨Finset.mem_range.mpr (h.lt_size hn), Reaches.refl t n⟩⟩

theorem extent_lt_of_child (hp : p < t.size) (hc : t.Child p c) (hnot : ¬ t.Reaches c p) :
    t.extent c < t.extent p := by
  classical
  apply Finset.card_lt_card
  rw [Finset.ssubset_iff_of_subset]
  · refine ⟨p, Finset.mem_filter.mpr ⟨Finset.mem_range.mpr hp, Reaches.refl t p⟩, ?_⟩
    intro hmem
    exact hnot (Finset.mem_filter.mp hmem).2
  · intro x hx
    obtain ⟨hlt, hcx⟩ := Finset.mem_filter.mp hx
    exact Finset.mem_filter.mpr ⟨hlt, (Child.reaches hc).trans hcx⟩

theorem Proper.extent_lt (h : t.Proper root) (hp : t.Reaches root p) (hc : t.Child p c) :
    t.extent c < t.extent p :=
  extent_lt_of_child (h.lt_size hp) hc (h.not_reaches_of_above hp (Child.above hc))

/-! ## Tests for trees -/

/-- The test looks at all slots of the tree, in reach or not. -/
theorem Proper.of_slots (hroot : root < t.size) (hsize : t.size ≤ NodeIndex.absent)
    (hrange : ∀ i ∈ List.range t.size, ∀ c ∈ t.children i, c < t.size)
    (hnodup : ((List.range t.size).flatMap t.children).Nodup)
    (hfree : root ∉ (List.range t.size).flatMap t.children) : t.Proper root := by
  have hlt : ∀ {i}, t.Reaches root i → i < t.size := by
    intro i hi
    induction hi with
    | refl => exact hroot
    | tail _ hc ih => exact hrange _ (List.mem_range.mpr ih) _ hc
  obtain ⟨hslots, hapart⟩ := List.nodup_flatMap.mp hnodup
  refine ⟨?_, ?_, ?_, ?_⟩
  · intro i hi
    have hne : i ≠ NodeIndex.absent := Nat.ne_of_lt (Nat.lt_of_lt_of_le (hlt hi) hsize)
    have hi' : i < t.nodes.size := hlt hi
    refine ⟨t.nodes[i], ?_⟩
    unfold get?
    rw [if_neg hne]
    exact Array.getElem?_eq_getElem hi'
  · intro p q c hp hq hpc hqc
    by_contra hne
    have hsym : Std.Symm (Function.onFun List.Disjoint t.children) := ⟨fun _ _ h => h.symm⟩
    exact hapart.forall (List.mem_range.mpr (hlt hp)) (List.mem_range.mpr (hlt hq)) hne hpc hqc
  · intro p hp
    exact hslots p (List.mem_range.mpr (hlt hp))
  · intro p hp hc
    exact hfree (List.mem_flatMap.mpr ⟨p, List.mem_range.mpr (hlt hp), hc⟩)

theorem mem_nodes_of_get {node : Node} (h : t.get? i = some node) : node ∈ t.nodes.toList := by
  unfold get? at h
  split at h
  · cases h
  · exact Array.mem_toList_iff.mpr (Array.mem_of_getElem? h)

theorem TypesInPlace.of_nodes (h : ∀ node ∈ t.nodes.toList,
    (∀ c ∈ node.kind.typePlaces, t.isTypeRef c = true) ∧
      ∀ c ∈ node.kind.valuePlaces, t.isTypeRef c = false) : t.TypesInPlace root := by
  intro p kind _ hk
  obtain ⟨node, hnode, rfl⟩ := Option.map_eq_some_iff.mp hk
  exact h node (mem_nodes_of_get hnode)

end Tree

end ScriptTyping
