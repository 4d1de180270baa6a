import ScriptTyping.Proofs.Descendants

/-!
# Pre-order

A tree is walked in a loop over a stack: the last index is taken off, and if it is in the tree, it
is written down and its children are pushed in reverse. Children may be shared, and then they are
walked once for each slot. Where every child stands before its parent, the loop ends with the
pre-order; without shared children every node in reach is listed once.
-/

namespace ScriptTyping.Tree

variable {t : Tree} {c i n p q root : NodeIndex} {d : Nat} {node : Node}
  {stack out : Array NodeIndex} {cs l : List NodeIndex}

/-- Every child stands before its parent or is not in the tree. -/
def ChildrenFirst (t : Tree) : Prop :=
  ∀ p ∈ List.range t.size, ∀ c ∈ t.children p, c < p ∨ t.get? c = none

instance (t : Tree) : Decidable t.ChildrenFirst :=
  inferInstanceAs (Decidable (∀ p ∈ List.range t.size, _))

theorem ChildrenFirst.acyclic (h : t.ChildrenFirst) : t.Acyclic := .of_earlier h

/-- No node fills two slots of the nodes that `root` reaches. An index that is not in the tree may
fill any number. -/
structure SlotsApart (t : Tree) (root : NodeIndex) : Prop where
  one_parent : ∀ {p q c node}, t.Reaches root p → t.Reaches root q → t.get? c = some node →
    t.Child p c → t.Child q c → p = q
  one_slot : ∀ {p}, t.Reaches root p → ((t.children p).filter fun c => (t.get? c).isSome).Nodup

/-! ## The recursive pre-order -/

/-- The node, then the pre-orders of its children in order; what is not in the tree is skipped. -/
inductive PreorderOf (t : Tree) : NodeIndex → List NodeIndex → Prop
  | missing {i : NodeIndex} (h : t.get? i = none) : PreorderOf t i []
  | node {i : NodeIndex} {node : Node} {below : List (List NodeIndex)} (h : t.get? i = some node)
      (hbelow : List.Forall₂ (PreorderOf t) node.kind.children below) :
      PreorderOf t i (i :: below.flatten)

theorem forall₂_iff_map {α β : Type} {R : α → β → Prop} {f : α → β} {as : List α} {bs : List β}
    (h : ∀ a ∈ as, ∀ b, R a b ↔ b = f a) : List.Forall₂ R as bs ↔ bs = as.map f := by
  induction as generalizing bs with
  | nil => simp
  | cons a as ih =>
    have hrest : ∀ bs, List.Forall₂ R as bs ↔ bs = as.map f :=
      fun bs => ih fun a' ha' => h a' (List.mem_cons_of_mem a ha')
    simp only [List.forall₂_cons_left_iff, h a List.mem_cons_self, hrest, List.map_cons]
    constructor
    · rintro ⟨b, bs', rfl, rfl, rfl⟩
      rfl
    · rintro rfl
      exact ⟨_, _, rfl, rfl, rfl⟩

theorem preorderOf_iff (hi : t.Bounded d i) : t.PreorderOf i l ↔ l = t.preorder d i := by
  have hmissing : ∀ {i l}, t.get? i = none → (t.PreorderOf i l ↔ l = []) := by
    intro i l hnone
    constructor
    · rintro (- | ⟨hsome, -⟩)
      · rfl
      · simp [hnone] at hsome
    · rintro rfl
      exact .missing hnone
  induction d generalizing i l with
  | zero => exact hmissing hi
  | succ d ih =>
    rw [preorder]
    cases hnode : t.get? i with
    | none => exact hmissing hnode
    | some node =>
      have hchild : ∀ c ∈ node.kind.children, ∀ l, t.PreorderOf c l ↔ l = t.preorder d c :=
        fun c hc l => ih (hi c ((child_of_kind (kind_of_get hnode)).mpr hc))
      dsimp only
      rw [List.flatMap_def]
      constructor
      · rintro (hnone | ⟨hsome, hbelow⟩)
        · simp [hnode] at hnone
        · obtain rfl := Option.some.inj (hnode.symm.trans hsome)
          rw [(forall₂_iff_map hchild).mp hbelow]
      · rintro rfl
        exact .node hnode ((forall₂_iff_map hchild).mpr rfl)

/-! ## The loop -/

/-- What the loop holds: the stack with its top at the end, and what is written down. -/
structure Walk where
  stack : Array NodeIndex
  out : Array NodeIndex

namespace Walk

def start (root : NodeIndex) : Walk := ⟨#[root], #[]⟩

/-- One turn of the loop; there is none when the stack is empty. -/
def turn (t : Tree) (w : Walk) : Option Walk :=
  match w.stack.back? with
  | none => none
  | some i =>
    match t.get? i with
    | none => some ⟨w.stack.pop, w.out⟩
    | some node => some ⟨w.stack.pop ++ node.kind.children.reverse.toArray, w.out.push i⟩

/-- Some turns lead from one to the other. -/
def Leads (t : Tree) (w w' : Walk) : Prop :=
  Relation.ReflTransGen (fun w w' => w.turn t = some w') w w'

theorem Leads.turn {w w' w'' : Walk} (h : w.turn t = some w') (h' : Leads t w' w'') :
    Leads t w w'' := Relation.ReflTransGen.head h h'

theorem Leads.trans {w w' w'' : Walk} (h : Leads t w w') (h' : Leads t w' w'') : Leads t w w'' :=
  Relation.ReflTransGen.trans h h'

theorem Leads.refl (t : Tree) (w : Walk) : Leads t w w := Relation.ReflTransGen.refl

theorem turn_missing (h : t.get? i = none) : turn t ⟨stack.push i, out⟩ = some ⟨stack, out⟩ := by
  simp [turn, h]

theorem turn_node (h : t.get? i = some node) : turn t ⟨stack.push i, out⟩ =
    some ⟨stack ++ node.kind.children.reverse.toArray, out.push i⟩ := by
  simp [turn, h]

theorem leads_children (hcs : ∀ c ∈ cs, ∀ stack out,
      Leads t ⟨stack.push c, out⟩ ⟨stack, out ++ (t.preorder d c).toArray⟩)
    (stack out : Array NodeIndex) :
    Leads t ⟨stack ++ cs.reverse.toArray, out⟩
      ⟨stack, out ++ (cs.flatMap (t.preorder d)).toArray⟩ := by
  induction cs generalizing out with
  | nil => simpa using Leads.refl t ⟨stack, out⟩
  | cons c cs ih =>
    have hfirst := hcs c List.mem_cons_self (stack ++ cs.reverse.toArray) out
    have hrest := ih (fun c' hc' => hcs c' (List.mem_cons_of_mem c hc'))
      (out ++ (t.preorder d c).toArray)
    simpa [Array.append_assoc] using hfirst.trans hrest

/-- The index on top is taken off with everything below it, and the rest of the stack is not
touched. -/
theorem leads_preorder (hi : t.Bounded d i) (stack out : Array NodeIndex) :
    Leads t ⟨stack.push i, out⟩ ⟨stack, out ++ (t.preorder d i).toArray⟩ := by
  induction d generalizing i stack out with
  | zero =>
    rw [preorder, Array.append_empty]
    exact .turn (turn_missing hi) (.refl t _)
  | succ d ih =>
    rw [preorder]
    cases hnode : t.get? i with
    | none =>
      rw [Array.append_empty]
      exact .turn (turn_missing hnode) (.refl t _)
    | some node =>
      have hbelow := leads_children
        (fun c hc => ih (hi c ((child_of_kind (kind_of_get hnode)).mpr hc))) stack (out.push i)
      simpa using Leads.turn (turn_node hnode) hbelow

end Walk

/-! ## Without shared nodes -/

theorem flatMap_preorder_present (t : Tree) (d : Nat) (cs : List NodeIndex) :
    cs.flatMap (t.preorder d) =
      (cs.filter fun c => (t.get? c).isSome).flatMap (t.preorder d) := by
  induction cs with
  | nil => rfl
  | cons c cs ih =>
    cases hc : t.get? c with
    | none =>
      have hnil : t.preorder d c = [] := by cases d <;> simp [preorder, hc]
      simp [hc, hnil, ih]
    | some node => simp [hc, ih]

namespace SlotsApart

theorem siblings_apart (h : t.SlotsApart root) (hacyclic : t.AcyclicBelow root)
    (hp : t.Reaches root p) {c d : NodeIndex} (hc : t.Child p c) (hd : t.Child p d)
    (hn : t.get? n = some node) (hcn : t.Reaches c n) (hdn : t.Reaches d n) : c = d := by
  have hloop : ∀ {c}, t.Child p c → ¬ t.Reaches c p := fun hc hcp =>
    hacyclic p hp (hc.above.trans_reaches hcp)
  -- Up the path from `n` to `c`: a node on it has one parent, so the path from `d` goes there too.
  induction hcn generalizing node with
  | refl =>
    rcases hdn.eq_or_above with heq | habove
    · exact heq
    · obtain ⟨q, hdq, hqc⟩ := habove.parent
      obtain rfl := h.one_parent hp ((hp.tail hd).trans hdq) hn hc hqc
      exact absurd hdq (hloop hd)
  | @tail m n hcm hmn ih =>
    have hm : t.Reaches root m := (hp.tail hc).trans hcm
    rcases hdn.eq_or_above with rfl | habove
    · obtain rfl := h.one_parent hp hm hn hd hmn
      exact absurd hcm (hloop hc)
    · obtain ⟨q, hdq, hqn⟩ := habove.parent
      obtain rfl := h.one_parent hm ((hp.tail hd).trans hdq) hn hmn hqn
      obtain ⟨parent, hparent⟩ := get_of_child hmn
      exact ih hparent hdq

theorem preorder_nodup (h : t.SlotsApart root) (hacyclic : t.AcyclicBelow root)
    (hr : t.Reaches root i) (hi : t.Bounded d i) : (t.preorder d i).Nodup := by
  induction d generalizing i with
  | zero => exact List.nodup_nil
  | succ d ih =>
    rw [preorder]
    cases hnode : t.get? i with
    | none => exact List.nodup_nil
    | some node =>
      have hkind := kind_of_get hnode
      have hchild : ∀ {c}, c ∈ node.kind.children → t.Child i c := (child_of_kind hkind).mpr
      have hspans : ∀ {c n}, c ∈ node.kind.children → n ∈ t.preorder d c → t.Spans c n :=
        fun hc hn => (mem_preorder_iff (hi _ (hchild hc))).mp hn
      refine List.nodup_cons.mpr ⟨fun hmem => ?_, ?_⟩
      · obtain ⟨c, hc, hn⟩ := List.mem_flatMap.mp hmem
        exact hacyclic i hr ((hchild hc).above.trans_reaches (hspans hc hn).1)
      · have hslots := h.one_slot hr
        rw [children_of_kind hkind] at hslots
        rw [flatMap_preorder_present, List.nodup_flatMap]
        refine ⟨fun c hc => ?_, hslots.pairwise_of_forall_ne fun c hc c' hc' hne => ?_⟩
        · have hc := List.mem_of_mem_filter hc
          exact ih (hr.tail (hchild hc)) (hi c (hchild hc))
        · have hc := List.mem_of_mem_filter hc
          have hc' := List.mem_of_mem_filter hc'
          intro n hn hn'
          obtain ⟨hcn, present, hpresent⟩ := hspans hc hn
          exact hne (h.siblings_apart hacyclic hr (hchild hc) (hchild hc') hpresent hcn
            (hspans hc' hn').1)

theorem of_slots (h : (((List.range t.size).flatMap t.children).filter
    fun c => (t.get? c).isSome).Nodup) : t.SlotsApart root := by
  rw [List.filter_flatMap] at h
  obtain ⟨hslots, hapart⟩ := List.nodup_flatMap.mp h
  have hrange : ∀ {p c}, t.Child p c → p ∈ List.range t.size := fun hc =>
    List.mem_range.mpr (lt_size_of_get (get_of_child hc).choose_spec)
  refine ⟨fun {p q c node} _ _ hnode hpc hqc => ?_, fun {p} _ => ?_⟩
  · by_contra hne
    have hpresent : (t.get? c).isSome := by simp [hnode]
    have hsym : Std.Symm (Function.onFun List.Disjoint fun p =>
      (t.children p).filter fun c => (t.get? c).isSome) := ⟨fun _ _ h => h.symm⟩
    exact hapart.forall (hrange hpc) (hrange hqc) hne (List.mem_filter.mpr ⟨hpc, hpresent⟩)
      (List.mem_filter.mpr ⟨hqc, hpresent⟩)
  · by_cases hp : p ∈ List.range t.size
    · exact hslots p hp
    · have hnone : t.children p = [] := List.eq_nil_iff_forall_not_mem.mpr fun c hc => hp (hrange hc)
      rw [hnone]
      exact List.nodup_nil

end SlotsApart

/-- Where every child stands before its parent, the loop comes to the empty stack, and what it has
written down by then is the recursive pre-order. If no node in reach fills two slots, every node in
reach is in the list, once, and nothing else is. -/
theorem descendants_preorder (h : t.ChildrenFirst) (root : NodeIndex) :
    Walk.Leads t (.start root) ⟨#[], (t.descendants root).toArray⟩ ∧
    (∀ l, t.PreorderOf root l ↔ l = t.descendants root) ∧
    (t.SlotsApart root → (t.descendants root).Nodup ∧
      ∀ n, n ∈ t.descendants root ↔ t.Reaches root n ∧ ∃ node, t.get? n = some node) := by
  have hacyclic : t.AcyclicBelow root := h.acyclic.below root
  have hbounded := hacyclic.bounded_size
  refine ⟨?_, fun l => ?_, fun hslots => ⟨?_, fun n => hacyclic.mem_descendants_iff⟩⟩
  · rw [hacyclic.descendants_eq]
    simpa [Walk.start] using Walk.leads_preorder hbounded #[] #[]
  · rw [hacyclic.descendants_eq]
    exact preorderOf_iff hbounded
  · rw [hacyclic.descendants_eq]
    exact hslots.preorder_nodup hacyclic (.refl t root) hbounded

/-- A shared child is listed for each slot that it fills. -/
example : descendants ⟨#[⟨.identifier "a", Span.empty⟩, ⟨.collection [0, 0], Span.empty⟩]⟩ 1 =
    [1, 0, 0] := by decide

/-- A block around `[b, a]`, with gaps between the two elements. -/
def gappedList : Tree :=
  ⟨#[⟨.identifier "a", Span.empty⟩, ⟨.identifier "b", Span.empty⟩,
    ⟨.collection [1, 9, NodeIndex.absent, 0, 9], Span.empty⟩, ⟨.block [2], Span.empty⟩]⟩

theorem gappedList_listed_once : gappedList.ChildrenFirst ∧ gappedList.SlotsApart 3 ∧
    gappedList.descendants 3 = [3, 2, 1, 0] ∧ (gappedList.descendants 3).Nodup := by
  have hfirst : gappedList.ChildrenFirst := by decide
  have hslots : gappedList.SlotsApart 3 := .of_slots (by decide)
  exact ⟨hfirst, hslots, by decide, ((descendants_preorder hfirst 3).2.2 hslots).1⟩

end ScriptTyping.Tree
