import ScriptTyping.Proofs.Ancestry
import ScriptTyping.Proofs.Run
import ScriptTyping.Proofs.Visibility
import ScriptTyping.Wiring

/-!
# Guards

What is known of a condition before its nodes are wired: the narrowed symbols of each guard, and
the scope that each conjunction has made for its right operand. Wiring comes back to these nodes
later, in the same scope, and finds them done.
-/

namespace ScriptTyping

namespace Tree

/-- The conjuncts of a condition from left to right: those of both operands of a conjunction. Any
other node is its only conjunct. -/
inductive Conjuncts (t : Tree) : NodeIndex → List NodeIndex → Prop
  | single {c : NodeIndex} (h : ∀ l r, t.kind? c ≠ some (.conjunction l r)) : Conjuncts t c [c]
  | both {c l r : NodeIndex} {gs hs : List NodeIndex} (h : t.kind? c = some (.conjunction l r))
      (hl : Conjuncts t l gs) (hr : Conjuncts t r hs) : Conjuncts t c (gs ++ hs)

def Conjunct (t : Tree) (c g : NodeIndex) : Prop := ∃ gs, t.Conjuncts c gs ∧ g ∈ gs

/-- The name that a guard tests. -/
def guardName? (t : Tree) (g : NodeIndex) : Option String :=
  match t.kind? g with
  | some (.typeTest operand _) => t.identifier? operand
  | _ => none

theorem Conjuncts.unique {t : Tree} {c : NodeIndex} {gs hs : List NodeIndex}
    (hg : t.Conjuncts c gs) (hh : t.Conjuncts c hs) : gs = hs := by
  induction hg generalizing hs with
  | single h =>
    cases hh with
    | single => rfl
    | both h' => exact absurd h' (h _ _)
  | both h _ _ ihl ihr =>
    cases hh with
    | single h' => exact absurd h (h' _ _)
    | both h' hl hr =>
      rw [h] at h'
      cases h'
      rw [ihl hl, ihr hr]

theorem kind_of_guardName {t : Tree} {g : NodeIndex} {name : String}
    (h : t.guardName? g = some name) :
    ∃ operand target, t.kind? g = some (.typeTest operand target) ∧
      t.identifier? operand = some name := by
  unfold guardName? at h
  split at h
  · rename_i operand target hk
    exact ⟨operand, target, hk, h⟩
  · simp at h

end Tree

namespace Session

variable {s s' s'' : Session} {σ τ id : Nat} {ids : List SymbolId}

/-! ## Sessions that grow -/

/-- The first phase only adds, and leaves to the second phase what is its own. -/
structure Grows (s s' : Session) : Prop where
  table : s.table.Extends s'.table
  declared : ∀ {i id}, s.declared.get? i = some id → s'.declared.get? i = some id
  truths : ∀ {i ids}, s.truths.get? i = some ids → s'.truths.get? i = some ids
  conjunctions : ∀ {i σ}, s.conjunctions.get? i = some σ → s'.conjunctions.get? i = some σ
  nodes : ∀ {i sc}, s.nodes.scopes? i = some sc → s'.nodes.scopes? i = some sc
  later : s'.symbolTypes = s.symbolTypes ∧ s'.diagnostics = s.diagnostics ∧
    s'.inProgress = s.inProgress ∧ s'.depth = s.depth ∧ s'.depthExceeded = s.depthExceeded

theorem Grows.refl (s : Session) : s.Grows s :=
  ⟨.refl _, fun h => h, fun h => h, fun h => h, fun h => h, rfl, rfl, rfl, rfl, rfl⟩

theorem Grows.trans (h : s.Grows s') (h' : s'.Grows s'') : s.Grows s'' := by
  refine ⟨h.table.trans h'.table, fun hi => h'.declared (h.declared hi),
    fun hi => h'.truths (h.truths hi), fun hi => h'.conjunctions (h.conjunctions hi),
    fun hi => h'.nodes (h.nodes hi), ?_⟩
  obtain ⟨h1, h2, h3, h4, h5⟩ := h.later
  obtain ⟨g1, g2, g3, g4, g5⟩ := h'.later
  exact ⟨g1.trans h1, g2.trans h2, g3.trans h3, g4.trans h4, g5.trans h5⟩

/-- Neither narrowed symbols nor a scope are known of the node. -/
def Untouched (s : Session) (n : NodeIndex) : Prop :=
  s.truths.get? n = none ∧ s.conjunctions.get? n = none

/-- Only conditions below `c` have become known. -/
structure Learns (t : Tree) (c : NodeIndex) (s s' : Session) : Prop where
  grows : s.Grows s'
  nodes : s'.nodes = s.nodes
  declared : s'.declared = s.declared
  frame : ∀ {n}, ¬ t.Reaches c n →
    s'.truths.get? n = s.truths.get? n ∧ s'.conjunctions.get? n = s.conjunctions.get? n

theorem Learns.refl (t : Tree) (c : NodeIndex) (s : Session) : Learns t c s s :=
  ⟨.refl s, rfl, rfl, fun _ => ⟨rfl, rfl⟩⟩

theorem Learns.trans {t : Tree} {c : NodeIndex} (h : Learns t c s s') (h' : Learns t c s' s'') :
    Learns t c s s'' := by
  refine ⟨h.grows.trans h'.grows, h'.nodes.trans h.nodes, h'.declared.trans h.declared, ?_⟩
  intro n hn
  exact ⟨(h'.frame hn).1.trans (h.frame hn).1, (h'.frame hn).2.trans (h.frame hn).2⟩

theorem Learns.lift {t : Tree} {c d : NodeIndex} (hcd : t.Reaches c d) (h : Learns t d s s') :
    Learns t c s s' :=
  ⟨h.grows, h.nodes, h.declared, fun hn => h.frame fun hd => hn (hcd.trans hd)⟩

theorem Learns.untouched {t : Tree} {c n : NodeIndex} (h : Learns t c s s')
    (hn : ¬ t.Reaches c n) (hu : s.Untouched n) : s'.Untouched n := by
  obtain ⟨h1, h2⟩ := h.frame hn
  exact ⟨h1.trans hu.1, h2.trans hu.2⟩

/-! ## Scopes of narrowed symbols -/

/-- `τ` adds the narrowed symbols to `σ`, the latest first. -/
def Narrows (s : Session) (σ τ : ScopeId) (ids : List SymbolId) : Prop :=
  (ids = [] ∧ τ = σ) ∨ (ids ≠ [] ∧ s.table.scope? τ = some ⟨some σ, ids.reverse⟩)

theorem Narrows.mono (h : s.Narrows σ τ ids) (ht : s.table.Extends s'.table) :
    s'.Narrows σ τ ids := by
  rcases h with h | ⟨hne, hd⟩
  · exact Or.inl h
  · exact Or.inr ⟨hne, ht.scope hd⟩

theorem Narrows.sees_iff (h : s.Narrows σ τ ids) (hwf : s.table.WellFormed) :
    s.table.Sees τ id ↔ s.table.Sees σ id ∨ id ∈ ids := by
  rcases h with ⟨rfl, rfl⟩ | ⟨-, hd⟩
  · simp
  · rw [SymbolTable.sees_iff hwf hd]
    simp [or_comm]

theorem Narrows.scope_lt (h : s.Narrows σ τ ids) (hσ : σ < s.table.scopes.size) :
    τ < s.table.scopes.size := by
  rcases h with ⟨-, rfl⟩ | ⟨-, hd⟩
  · exact hσ
  · exact SymbolTable.scope_lt hd

/-- What a guard on a name makes in a scope: one narrowed symbol if the name means a constant. -/
def Narrowing (s : Session) (σ : ScopeId) (name : String) (g : NodeIndex) (ids : List SymbolId) :
    Prop :=
  match s.table.resolve σ name with
  | none => ids = []
  | some o =>
    if s.table.isConst o then ∃ id, ids = [id] ∧ s.table.symbol? id = some ⟨name, .narrowed o g⟩
    else ids = []

theorem Narrowing.mono {name : String} {g : NodeIndex} (h : s.Narrowing σ name g ids)
    (ht : s.table.Extends s'.table) (hwf : s.table.WellFormed) (hσ : σ < s.table.scopes.size) :
    s'.Narrowing σ name g ids := by
  unfold Narrowing at h ⊢
  rw [ht.resolve_eq hwf hσ]
  cases ho : s.table.resolve σ name with
  | none =>
    simp only [ho] at h ⊢
    exact h
  | some o =>
    simp only [ho] at h ⊢
    have hlt : o < s.table.symbols.size := (SymbolTable.sees_of_resolve ho).1.lt hwf
    rw [ht.isConst_eq hlt]
    split
    · rename_i hc
      rw [if_pos hc] at h
      obtain ⟨id, hid, hs⟩ := h
      exact ⟨id, hid, ht.symbol hs⟩
    · rename_i hc
      rwa [if_neg hc] at h

theorem Narrowing.original {name : String} {g : NodeIndex} (h : s.Narrowing σ name g ids)
    (hid : id ∈ ids) :
    ∃ o, s.table.symbol? id = some ⟨name, .narrowed o g⟩ ∧ s.table.Sees σ o := by
  unfold Narrowing at h
  split at h
  · simp [h] at hid
  · rename_i o ho
    split at h
    · obtain ⟨id', rfl, hs⟩ := h
      rw [List.mem_singleton.mp hid]
      exact ⟨o, hs, (SymbolTable.sees_of_resolve ho).1⟩
    · simp [h] at hid

/-! ## Conditions that are known -/

/-- The condition `i` is known in the scope `σ`: its narrowed symbols are `ids`. Nothing is known
below its conjuncts. -/
inductive Guarded (t : Tree) (s : Session) : NodeIndex → ScopeId → List SymbolId → Prop
  | free {i : NodeIndex} {σ : ScopeId} (hkind : ∀ l r, t.kind? i ≠ some (.conjunction l r))
      (hname : t.guardName? i = none) (htruth : s.truths.get? i = none)
      (hbelow : ∀ n, t.Above i n → s.Untouched n) : Guarded t s i σ []
  | guard {i : NodeIndex} {σ : ScopeId} {name : String} {ids : List SymbolId}
      (hname : t.guardName? i = some name) (htruth : s.truths.get? i = some ids)
      (hnarrow : s.Narrowing σ name i ids) (hbelow : ∀ n, t.Above i n → s.Untouched n) :
      Guarded t s i σ ids
  | both {i l r : NodeIndex} {σ τ : ScopeId} {left right : List SymbolId}
      (hkind : t.kind? i = some (.conjunction l r)) (hl : Guarded t s l σ left)
      (hnarrows : s.Narrows σ τ left) (hconj : s.conjunctions.get? i = some τ)
      (hr : Guarded t s r τ right) (htruth : s.truths.get? i = some (left ++ right)) :
      Guarded t s i σ (left ++ right)

/-- A condition that is still to be wired: nothing is known of it, or everything. -/
def Pending (t : Tree) (s : Session) (i : NodeIndex) (σ : ScopeId) : Prop :=
  (∀ n, t.Reaches i n → s.Untouched n) ∨ ∃ ids, Guarded t s i σ ids

/-- The narrowed symbols of a conjunct. -/
def truthOf (t : Tree) (s : Session) (g : NodeIndex) : List SymbolId :=
  match t.guardName? g with
  | none => []
  | some _ => (s.truths.get? g).getD []

/-- The guards among the conjuncts are known, and `ids` are their narrowed symbols. -/
structure Truths (t : Tree) (s : Session) (gs : List NodeIndex) (ids : List SymbolId) : Prop where
  known : ∀ g ∈ gs, t.guardName? g ≠ none → ∃ ids, s.truths.get? g = some ids
  all : ids = gs.flatMap (truthOf t s)

variable {t : Tree} {i l r : NodeIndex}

theorem guardName_of_conjunction (h : t.kind? i = some (.conjunction l r)) :
    t.guardName? i = none := by
  simp only [Tree.guardName?, h]

theorem Guarded.mono (h : Guarded t s i σ ids) (ht : s.table.Extends s'.table)
    (hwf : s.table.WellFormed) (hσ : σ < s.table.scopes.size)
    (hsame : ∀ n, t.Reaches i n → s'.truths.get? n = s.truths.get? n ∧
      s'.conjunctions.get? n = s.conjunctions.get? n) : Guarded t s' i σ ids := by
  have huntouched : ∀ n, t.Reaches i n → s.Untouched n → s'.Untouched n := fun n hn hu =>
    ⟨(hsame n hn).1.trans hu.1, (hsame n hn).2.trans hu.2⟩
  induction h with
  | @free i σ hkind hname htruth hbelow =>
    refine .free hkind hname ((hsame i (.refl t i)).1.trans htruth) ?_
    exact fun n hn => huntouched n hn.reaches (hbelow n hn)
  | @guard i σ name ids hname htruth hnarrow hbelow =>
    refine .guard hname ((hsame i (.refl t i)).1.trans htruth) (hnarrow.mono ht hwf hσ) ?_
    exact fun n hn => huntouched n hn.reaches (hbelow n hn)
  | @both i l r σ τ left right hkind _ hnarrows hconj _ htruth ihl ihr =>
    have hil : t.Reaches i l := ((Tree.child_of_kind hkind).mpr (by simp [NodeKind.children])).reaches
    have hir : t.Reaches i r := ((Tree.child_of_kind hkind).mpr (by simp [NodeKind.children])).reaches
    have hi := hsame i (.refl t i)
    refine .both hkind ?_ (hnarrows.mono ht) (hi.2.trans hconj) ?_ (hi.1.trans htruth)
    · exact ihl hσ (fun n hn => hsame n (hil.trans hn)) fun n hn => huntouched n (hil.trans hn)
    · exact ihr (hnarrows.scope_lt hσ) (fun n hn => hsame n (hir.trans hn))
        fun n hn => huntouched n (hir.trans hn)

theorem Truths.mono {gs : List NodeIndex} (h : Truths t s gs ids) (hs : s.Grows s') :
    Truths t s' gs ids := by
  refine ⟨fun g hg hname => ?_, ?_⟩
  · obtain ⟨known, hknown⟩ := h.known g hg hname
    exact ⟨known, hs.truths hknown⟩
  · rw [h.all]
    apply List.flatMap_congr
    intro g hg
    unfold truthOf
    cases hname : t.guardName? g with
    | none => rfl
    | some name =>
      obtain ⟨known, hknown⟩ := h.known g hg (by simp [hname])
      simp only [hknown, hs.truths hknown]

theorem Truths.append {gs hs : List NodeIndex} {left right : List SymbolId}
    (hl : Truths t s gs left) (hr : Truths t s hs right) : Truths t s (gs ++ hs) (left ++ right) := by
  refine ⟨fun g hg hname => ?_, ?_⟩
  · rcases List.mem_append.mp hg with hg | hg
    · exact hl.known g hg hname
    · exact hr.known g hg hname
  · rw [List.flatMap_append, ← hl.all, ← hr.all]

theorem Guarded.conjuncts (h : Guarded t s i σ ids) : ∃ gs, t.Conjuncts i gs ∧ Truths t s gs ids := by
  induction h with
  | @free i σ hkind hname _ _ =>
    exact ⟨[i], .single hkind, by simp [hname], by simp [truthOf, hname]⟩
  | @guard i σ name ids hname htruth _ _ =>
    obtain ⟨operand, target, hk, -⟩ := Tree.kind_of_guardName hname
    exact ⟨[i], .single (by simp [hk]), by simp [htruth], by simp [truthOf, hname, htruth]⟩
  | both hkind _ _ _ _ _ ihl ihr =>
    obtain ⟨gs, hgs, hleft⟩ := ihl
    obtain ⟨hs, hhs, hright⟩ := ihr
    exact ⟨gs ++ hs, .both hkind hgs hhs, hleft.append hright⟩

theorem Guarded.originals (h : Guarded t s i σ ids) (hwf : s.table.WellFormed) (hid : id ∈ ids) :
    ∃ name o g, s.table.symbol? id = some ⟨name, .narrowed o g⟩ ∧
      (s.table.Sees σ o ∨ o ∈ ids) := by
  induction h with
  | free => simp at hid
  | @guard i σ name ids _ _ hnarrow _ =>
    obtain ⟨o, hs, hsees⟩ := hnarrow.original hid
    exact ⟨name, o, i, hs, Or.inl hsees⟩
  | @both i l r σ τ left right _ _ hnarrows _ _ _ ihl ihr =>
    rcases List.mem_append.mp hid with hid | hid
    · obtain ⟨name, o, g, hs, hor⟩ := ihl hid
      exact ⟨name, o, g, hs, hor.imp_right fun ho => List.mem_append_left _ ho⟩
    · obtain ⟨name, o, g, hs, hor⟩ := ihr hid
      refine ⟨name, o, g, hs, ?_⟩
      rcases hor with hsees | ho
      · exact ((hnarrows.sees_iff hwf).mp hsees).imp_right (List.mem_append_left _)
      · exact Or.inr (List.mem_append_right _ ho)

end Session

end ScriptTyping
