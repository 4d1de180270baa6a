import ScriptTyping.Proofs.Upkeep
import ScriptTyping.Proofs.Visibility

/-!
# Walks from scope to scope

A name is looked up along the parents of a scope, as far as they go. The first phase hangs new
scopes below the scope that it is given. Nobody asks whether that scope is there, and if it is not,
one of the new scopes may take its place: then the new scopes hang below one of themselves, and a
lookup among them goes round for ever. In all other cases every lookup comes to an end.
-/

namespace ScriptTyping

open Session Check

namespace SymbolTable

variable {t t' : SymbolTable} {σ τ p : Nat} {name : String} {found found' : Option SymbolId}

/-- Scope `σ` has the parent `p`, be it there or not. -/
def Parent (t : SymbolTable) (σ p : ScopeId) : Prop := (t.scope? σ).bind (·.parent) = some p

instance : Decidable (t.Parent σ p) := inferInstanceAs (Decidable (_ = _))

/-- Scope `τ` stands above `σ`. -/
def Ancestor (t : SymbolTable) (σ τ : ScopeId) : Prop := Relation.TransGen t.Parent σ τ

/-- Every parent comes before its children. -/
def ParentsFirst (t : SymbolTable) : Prop := ∀ ⦃σ p : Nat⦄, t.Parent σ p → p < σ

/-- What a lookup comes to that goes up as far as there are parents. If it never comes to an end
there is no answer. -/
inductive Looks (t : SymbolTable) (name : String) : ScopeId → Option SymbolId → Prop
  | found {σ : ScopeId} {id : SymbolId} (h : t.resolveIn name σ = some id) :
    Looks t name σ (some id)
  /-- The scope has no parent, or is missing. -/
  | top {σ : ScopeId} (h : t.resolveIn name σ = none) (hparent : ∀ p, ¬ t.Parent σ p) :
      Looks t name σ none
  | up {σ p : ScopeId} {found : Option SymbolId} (h : t.resolveIn name σ = none)
      (hparent : t.Parent σ p) (hp : Looks t name p found) : Looks t name σ found

theorem parent_iff : t.Parent σ p ↔ ∃ data, t.scope? σ = some data ∧ data.parent = some p :=
  Option.bind_eq_some_iff

theorem Parent.unique {q : ScopeId} (h : t.Parent σ p) (h' : t.Parent σ q) : p = q :=
  Option.some.inj (h.symm.trans h')

theorem Extends.parent (h : t.Extends t') (hp : t.Parent σ p) : t'.Parent σ p := by
  obtain ⟨data, hd, hparent⟩ := parent_iff.mp hp
  exact parent_iff.mpr ⟨data, h.scope hd, hparent⟩

theorem Extends.parent_of_lt (h : t.Extends t') (hσ : σ < t.scopes.size) (hp : t'.Parent σ p) :
    t.Parent σ p := by
  obtain ⟨data, hd⟩ := exists_scope hσ
  rw [Parent, h.scope hd] at hp
  rwa [Parent, hd]

theorem Looks.unique (h : t.Looks name σ found) (h' : t.Looks name σ found') : found = found' := by
  induction h with
  | found h => cases h' <;> simp_all
  | top h hparent =>
    cases h' with
    | found h' => simp [h] at h'
    | top => rfl
    | up _ hp => exact absurd hp (hparent _)
  | up h hp _ ih =>
    cases h' with
    | found h' => simp [h] at h'
    | top _ hparent => exact absurd hp (hparent _)
    | up _ hp' hlooks => exact ih (hp.unique hp' ▸ hlooks)

/-! ## Parents that go down -/

/-- A parent comes before its children, or is missing. -/
def Descends (t : SymbolTable) : Prop := ∀ ⦃σ p : Nat⦄, t.Parent σ p → p < σ ∨ t.scope? p = none

theorem not_parent_of_missing (h : t.scope? σ = none) (p : ScopeId) : ¬ t.Parent σ p := by
  simp [Parent, h]

theorem Descends.acyclic (h : t.Descends) (σ : ScopeId) : ¬ t.Ancestor σ σ := by
  have hdown : ∀ {τ : Nat}, t.Ancestor σ τ → τ < σ ∨ t.scope? τ = none := by
    intro τ hτ
    induction hτ with
    | single hp => exact h hp
    | @tail p q _ hpq ih =>
      have hlt := ih.resolve_right fun hmissing => not_parent_of_missing hmissing q hpq
      exact (h hpq).imp_left fun hq => Nat.lt_trans hq hlt
  intro hloop
  rcases hdown hloop with hlt | hmissing
  · exact Nat.lt_irrefl σ hlt
  · obtain ⟨p, hp, -⟩ := Relation.TransGen.head'_iff.mp hloop
    exact not_parent_of_missing hmissing p hp

theorem Descends.looks_within (h : t.Descends) {links : Nat} (hσ : σ < links ∨ t.scope? σ = none) :
    t.Looks name σ ((t.chainWithin links σ).findSome? (t.resolveIn name)) := by
  have hmissing : ∀ {σ}, t.scope? σ = none → t.Looks name σ none := fun hnone =>
    .top (by simp [resolveIn, hnone]) (not_parent_of_missing hnone)
  induction links generalizing σ with
  | zero => exact hmissing (hσ.resolve_left (by omega))
  | succ links ih =>
    unfold chainWithin
    cases hd : t.scope? σ with
    | none => exact hmissing hd
    | some data =>
      rw [List.findSome?_cons]
      cases hin : t.resolveIn name σ with
      | some id => exact .found hin
      | none =>
        cases hp : data.parent with
        | none => exact .top hin fun p => by simp [Parent, hd, hp]
        | some p =>
          have hparent : t.Parent σ p := parent_iff.mpr ⟨data, hd, hp⟩
          have hlt : σ < links + 1 := hσ.resolve_right (by simp [hd])
          exact .up hin hparent (ih ((h hparent).imp_left fun hpσ => by omega))

theorem Descends.looks_iff (h : t.Descends) : t.Looks name σ found ↔ found = t.resolve σ name := by
  have hresolve : t.Looks name σ (t.resolve σ name) :=
    h.looks_within ((Nat.lt_or_ge σ t.scopes.size).imp_right Array.getElem?_eq_none)
  exact ⟨fun hlooks => hlooks.unique hresolve, fun heq => heq ▸ hresolve⟩

/-- Among scopes that all have a parent among them, a name that no symbol has is looked up for
ever. -/
theorem not_looks {P : ScopeId → Prop} (hparent : ∀ σ, P σ → ∃ p, t.Parent σ p ∧ P p)
    (hname : ∀ id s, t.symbol? id = some s → s.name ≠ name) (hσ : P σ) :
    ¬ t.Looks name σ found := by
  intro hlooks
  induction hlooks with
  | @found τ id h =>
    obtain ⟨data, -, hfind⟩ := Option.bind_eq_some_iff.mp h
    have hnamed := List.find?_some hfind
    unfold isNamed at hnamed
    split at hnamed
    · rename_i s hs
      exact hname id s hs (by simpa using hnamed)
    · cases hnamed
  | top _ hnone =>
    obtain ⟨p, hp, -⟩ := hparent _ hσ
    exact hnone p hp
  | up _ hp _ ih =>
    obtain ⟨q, hq, hamong⟩ := hparent _ hσ
    exact ih (hp.unique hq ▸ hamong)

end SymbolTable

/-! ## What new scopes hang below -/

variable {ctx : Context} {table : SymbolTable} {given σ i c : Nat} {kind : NodeKind} {s : Session}

namespace Session

/-- A scope that the first phase may hand to a node: the one that it was given, or a new one. -/
def Handed (table : SymbolTable) (given : ScopeId) (s : Session) (σ : ScopeId) : Prop :=
  σ = given ∨ table.scopes.size ≤ σ ∧ σ < s.table.scopes.size

/-- Every new scope hangs below the one that was given, or below a new one before it. -/
structure Hangs (table : SymbolTable) (given : ScopeId) (s : Session) : Prop where
  grows : table.Extends s.table
  parent : ∀ {σ : Nat}, table.scopes.size ≤ σ → σ < s.table.scopes.size →
    ∃ p : Nat, s.table.Parent σ p ∧ (p = given ∨ table.scopes.size ≤ p ∧ p < σ)
  conjunctions : ∀ {c σ}, s.conjunctions.get? c = some σ → s.Handed table given σ

theorem handed_keptByWiring (table : SymbolTable) (given σ : ScopeId) :
    KeptByWiring fun s => s.Handed table given σ where
  symbol _ h := h
  truths h := h
  declared h := h
  scope {s _ _} h := h.imp_right fun ⟨hle, hlt⟩ =>
    ⟨hle, Nat.lt_of_lt_of_le hlt (SymbolTable.extends_addScope s.table _ _).scopes_le⟩
  conjunction h := h
  wired _ h := h

theorem hangs_keptByNaming (table : SymbolTable) (given : ScopeId) :
    KeptByNaming (Hangs table given) where
  symbol _ h := ⟨h.grows.trans (SymbolTable.extends_addSymbol _ _), h.parent, h.conjunctions⟩
  truths h := ⟨h.grows, h.parent, h.conjunctions⟩
  declared h := ⟨h.grows, h.parent, h.conjunctions⟩

theorem Hangs.addScope (h : s.Hangs table given) (hσ : s.Handed table given σ)
    (ids : List SymbolId) :
    Hangs table given { s with table := (s.table.addScope (some σ) ids).2 } ∧
      Handed table given { s with table := (s.table.addScope (some σ) ids).2 }
        s.table.scopes.size := by
  have hext := SymbolTable.extends_addScope s.table (some σ) ids
  have hscope := SymbolTable.scope_addScope s.table (some σ) ids
  have hle : table.scopes.size ≤ s.table.scopes.size := h.grows.scopes_le
  have hsize : (s.table.addScope (some σ) ids).2.scopes.size = s.table.scopes.size + 1 := by
    simp [SymbolTable.addScope]
  refine ⟨⟨h.grows.trans hext, fun {τ} hτ hlt => ?_, fun hc => ?_⟩, Or.inr ⟨hle, ?_⟩⟩
  · rcases Nat.lt_succ_iff_lt_or_eq.mp (hsize ▸ hlt) with hold | rfl
    · obtain ⟨p, hp, hcases⟩ := h.parent hτ hold
      exact ⟨p, hext.parent hp, hcases⟩
    · exact ⟨σ, SymbolTable.parent_iff.mpr ⟨_, hscope, rfl⟩, hσ⟩
  · exact (handed_keptByWiring table given _).scope (h.conjunctions hc)
  · exact hsize ▸ Nat.lt_succ_self _

end Session

namespace Check

theorem narrowedScope_hangs (h : s.Hangs table given) (hσ : s.Handed table given σ)
    (ids : List SymbolId) :
    (narrowedScope σ ids).After s fun τ s' => s'.Hangs table given ∧ s'.Handed table given τ := by
  unfold narrowedScope
  split
  · exact ⟨h, hσ⟩
  · exact h.addScope hσ _

theorem truthsWithin_hangs (depth : Nat) (h : s.Hangs table given) (hσ : s.Handed table given σ) :
    (truthsWithin ctx depth c σ).After s fun _ s' => s'.Hangs table given := by
  have hnaming := hangs_keptByNaming table given
  induction depth generalizing c σ s with
  | zero => exact h
  | succ depth ih =>
    have hkeeps := handed_keptByWiring table given σ
    unfold truthsWithin
    simp only [after_bind, after_get]
    split
    · exact h
    · split
      · split
        · exact h
        · exact (((hnaming.narrowName _ c σ).bind fun ids _ =>
            (hnaming.rememberTruths c ids).bind fun _ _ => .pure trivial) s h).2
      · rename_i left right _
        simp only [after_bind]
        refine ((ih h hσ).and (hkeeps.truthsWithin depth left σ s hσ)).mono ?_
        rintro leftIds s1 ⟨h1, -, hσ1⟩
        refine (narrowedScope_hangs h1 hσ1 leftIds).mono ?_
        rintro τ s2 ⟨h2, hτ⟩
        have h3 : Hangs table given { s2 with conjunctions := s2.conjunctions.insert c τ } := by
          refine ⟨h2.grows, h2.parent, fun {c' ρ} hc => ?_⟩
          rw [OrderedMap.get?_insert] at hc
          split at hc
          · cases hc
            exact hτ
          · exact h2.conjunctions hc
        exact (ih (c := right) (σ := τ) h3 hτ).mono fun rightIds s4 h4 => hnaming.truths h4
      · exact h

theorem childWires_hangs (h : s.Hangs table given) (hσ : s.Handed table given σ) :
    (childWires ctx i kind σ).After s fun wires s' =>
      s'.Hangs table given ∧ ∀ w ∈ wires.children, s'.Handed table given w.2 := by
  have hnaming := hangs_keptByNaming table given
  have hkeeps := handed_keptByWiring table given σ
  have hsame : ∀ {s : Session} {cs : List NodeIndex}, s.Handed table given σ →
      ∀ w ∈ cs.map (·, σ), s.Handed table given w.2 := fun hσ w hw => by
    obtain ⟨c, -, rfl⟩ := List.mem_map.mp hw
    exact hσ
  cases kind with
  | conditional condition thenBranch elseBranch =>
    simp only [childWires, after_bind, after_pure]
    refine ((truthsWithin_hangs _ h hσ).and (hkeeps.truthsWithin _ condition σ s hσ)).mono ?_
    rintro ids s1 ⟨h1, -, hσ1⟩
    refine ((narrowedScope_hangs h1 hσ1 ids).and (hkeeps.narrowedScope σ ids s1 hσ1)).mono ?_
    rintro τ s2 ⟨⟨h2, hτ⟩, -, hσ2⟩
    refine ⟨h2, ?_⟩
    simp only [List.forall_mem_cons]
    exact ⟨hσ2, hτ, hsame hσ2⟩
  | conjunction left right =>
    simp only [childWires, after_bind, after_get, after_pure]
    refine ((truthsWithin_hangs _ h hσ).and (hkeeps.truthsWithin _ i σ s hσ)).mono ?_
    rintro ids s1 ⟨h1, -, hσ1⟩
    refine ⟨h1, ?_⟩
    simp only [List.forall_mem_cons, List.not_mem_nil, false_imp_iff, implies_true, and_true]
    refine ⟨hσ1, ?_⟩
    cases hc : s1.conjunctions.get? i with
    | none => exact hσ1
    | some τ => exact h1.conjunctions hc
  | lambda params body =>
    simp only [childWires, after_bind, addScope, after_modifyGet, after_pure]
    refine After.mono ((hnaming.addParameters i (parameterNames ctx params) 0 s h).and
      (hkeeps.addParameters i (parameterNames ctx params) 0 s hσ)) ?_
    rintro ids s1 ⟨⟨-, h1⟩, -, hσ1⟩
    obtain ⟨h2, hτ⟩ := h1.addScope hσ1 ids
    refine ⟨h2, fun w hw => ?_⟩
    rcases List.mem_append.mp hw with hw | hw
    · exact hsame (hkeeps.scope hσ1) w hw
    · rw [List.mem_singleton.mp hw]
      exact hτ
  | block statements =>
    simp only [childWires, after_bind, addScope, after_modifyGet, after_pure]
    refine After.mono ((hnaming.declareStatements statements s h).and
      (hkeeps.declareStatements statements s hσ)) ?_
    rintro ids s1 ⟨⟨-, h1⟩, -, hσ1⟩
    obtain ⟨h2, hτ⟩ := h1.addScope hσ1 ids
    refine ⟨h2, fun w hw => ?_⟩
    obtain ⟨c, -, rfl⟩ := List.mem_map.mp hw
    exact hτ
  | declaration name isConst ascription initializer =>
    simp only [childWires, after_bind, after_get]
    split
    · exact ⟨(hnaming.declare i name isConst s h).2, hsame (hkeeps.declare i name isConst s hσ).2⟩
    · exact ⟨h, hsame hσ⟩
  | _ => exact ⟨h, hsame hσ⟩

theorem assignScopes_hangs (h : s.Hangs table given) (sc : NodeScopes) :
    (assignScopes i sc).After s fun _ s' => s'.Hangs table given := by
  simp only [assignScopes, after_modifyGet]
  split
  · exact ⟨h.grows, h.parent, h.conjunctions⟩
  · exact h

theorem forM_hangs {visit : NodeIndex × ScopeId → Check Unit} {wires : List (NodeIndex × ScopeId)}
    (hvisit : ∀ w s, s.Hangs table given → s.Handed table given w.2 →
      (visit w).After s fun _ s' => s'.Hangs table given)
    (hkeeps : ∀ w σ, Keeps (Handed table given · σ) (visit w) fun _ => True)
    (h : s.Hangs table given) (hwires : ∀ w ∈ wires, s.Handed table given w.2) :
    (wires.forM visit).After s fun _ s' => s'.Hangs table given := by
  induction wires generalizing s with
  | nil => exact h
  | cons w wires ih =>
    rw [after_forM_cons]
    have hrest : (visit w).After s fun _ s1 => ∀ v ∈ wires, s1.Handed table given v.2 :=
      fun v hv => (hkeeps w v.2 s (hwires v (List.mem_cons_of_mem w hv))).2
    refine ((hvisit w s h (hwires w List.mem_cons_self)).and hrest).mono ?_
    rintro _ s1 ⟨h1, hwires1⟩
    exact ih h1 hwires1

theorem wireWithin_hangs (depth : Nat) (h : s.Hangs table given) (hσ : s.Handed table given σ) :
    (wireWithin ctx depth i σ).After s fun _ s' => s'.Hangs table given := by
  induction depth generalizing i σ s with
  | zero => exact h
  | succ depth ih =>
    unfold wireWithin
    split
    · exact h
    · simp only [after_bind]
      refine (childWires_hangs h hσ).mono ?_
      rintro wires s1 ⟨h1, hwires⟩
      have hhanded : (assignScopes i ⟨σ, wires.inner⟩).After s1 fun _ s2 =>
          ∀ w ∈ wires.children, s2.Handed table given w.2 := fun w hw =>
        ((handed_keptByWiring table given w.2).assignScopes i _ s1 (hwires w hw)).2
      refine ((assignScopes_hangs h1 _).and hhanded).mono ?_
      rintro assigned s2 ⟨h2, hwires2⟩
      cases assigned with
      | false => exact h2
      | true =>
        exact forM_hangs (fun w s hs hw => ih hs hw)
          (fun w τ => (handed_keptByWiring table given τ).wireWithin depth w.1 w.2) h2 hwires2

theorem wire_hangs (ctx : Context) (table : SymbolTable) (root given : Nat) :
    (wire ctx root given).After (.start ctx table) fun _ s => s.Hangs table given :=
  have hnew : ∀ {σ : Nat}, table.scopes.size ≤ σ → ¬ σ < table.scopes.size := Nat.not_lt.mpr
  wireWithin_hangs _ ⟨.refl table, fun hle hlt => absurd hlt (hnew hle), fun h => by cases h⟩
    (Or.inl rfl)

end Check

/-! ## Lookups after the first phase -/

/-- The scope that was given was missing, and a new scope has taken its place. -/
def Session.Usurped (table : SymbolTable) (given : Nat) (s : Session) : Prop :=
  table.scopes.size ≤ given ∧ given < s.table.scopes.size

instance : Decidable (s.Usurped table given) := inferInstanceAs (Decidable (_ ∧ _))

namespace Session

theorem Hangs.descends (h : s.Hangs table given) (hfirst : table.ParentsFirst)
    (hplace : ¬ s.Usurped table given) : s.table.Descends := by
  intro σ p hp
  rcases Nat.lt_or_ge σ table.scopes.size with hold | hnew
  · exact Or.inl (hfirst (h.grows.parent_of_lt hold hp))
  · obtain ⟨data, hdata, -⟩ := SymbolTable.parent_iff.mp hp
    obtain ⟨q, hq, hcases⟩ := h.parent hnew (SymbolTable.scope_lt hdata)
    obtain rfl := hp.unique hq
    rcases hcases with rfl | ⟨-, hlt⟩
    · rcases Nat.lt_or_ge p table.scopes.size with hgiven | hmissing
      · exact Or.inl (by omega)
      · exact Or.inr (Array.getElem?_eq_none (Nat.not_lt.mp fun hlt => hplace ⟨hmissing, hlt⟩))
    · exact Or.inl hlt

theorem Hangs.new_parent (h : s.Hangs table given) (hplace : s.Usurped table given)
    (hle : table.scopes.size ≤ σ) (hlt : σ < s.table.scopes.size) :
    ∃ p : Nat, s.table.Parent σ p ∧ table.scopes.size ≤ p ∧ p < s.table.scopes.size ∧
      (p = given ∨ p < σ) := by
  obtain ⟨p, hp, rfl | ⟨hle', hlt'⟩⟩ := h.parent hle hlt
  · exact ⟨p, hp, hplace.1, hplace.2, Or.inl rfl⟩
  · exact ⟨p, hp, hle', Nat.lt_trans hlt' hlt, Or.inr hlt'⟩

theorem Hangs.below_given (h : s.Hangs table given) (hplace : s.Usurped table given)
    (hle : table.scopes.size ≤ σ) (hlt : σ < s.table.scopes.size) : s.table.Ancestor σ given := by
  induction σ using Nat.strong_induction_on with
  | h σ ih =>
    obtain ⟨p, hp, hple, hplt, rfl | hdown⟩ := h.new_parent hplace hle hlt
    · exact .single hp
    · exact .head hp (ih p hdown hple hplt)

end Session

/-- Lookups come to an end after the first phase, in all scopes and for all names, unless a new
scope takes the place of a missing one that the phase was given: then the scopes have a cycle, and
the search for a name that nobody declares does not end. -/
theorem lookups_end_iff (ctx : Context) (root : NodeIndex) (hfirst : table.ParentsFirst) :
    (wire ctx root given).After (.start ctx table) fun _ s =>
      ((∃ σ, s.table.Ancestor σ σ) ↔ s.Usurped table given) ∧
      (¬ s.Usurped table given →
        ∀ name σ found, s.table.Looks name σ found ↔ found = s.table.resolve σ name) ∧
      (s.Usurped table given → ∀ name, (∀ id v, s.table.symbol? id = some v → v.name ≠ name) →
        ∀ found, ¬ s.table.Looks name given found) := by
  refine (wire_hangs ctx table root given).mono fun _ s h => ⟨⟨?_, fun hplace => ?_⟩, ?_, ?_⟩
  · rintro ⟨σ, hloop⟩
    by_contra hplace
    exact (h.descends hfirst hplace).acyclic σ hloop
  · exact ⟨given, h.below_given hplace hplace.1 hplace.2⟩
  · exact fun hplace name σ found => (h.descends hfirst hplace).looks_iff
  · intro hplace name hname found
    refine SymbolTable.not_looks
      (P := fun σ : Nat => table.scopes.size ≤ σ ∧ σ < s.table.scopes.size) ?_ hname hplace
    rintro σ ⟨hle, hlt⟩
    obtain ⟨p, hp, hple, hplt, -⟩ := h.new_parent hplace hle hlt
    exact ⟨p, hp, hple, hplt⟩

/-- `{ true }` -/
def lonelyBlock : Context where
  env := .initial
  options := {}
  tree := ⟨#[⟨.literal (.value (.boolean true)), Span.empty⟩, ⟨.block [0], Span.empty⟩]⟩

/-- A table with a single scope, which has no parent. -/
def singleScope : SymbolTable := (SymbolTable.hostScope {} []).2

theorem singleScope_parentsFirst : singleScope.ParentsFirst := fun _ _ hp => by
  obtain ⟨data, hdata, hparent⟩ := SymbolTable.parent_iff.mp hp
  exact (SymbolTable.hostScope_spec []).wf.parent_lt hdata hparent

/-- Scope 0 is there; scope 1 is not, and the scope of the block takes its place. -/
theorem block_below_given_scope :
    singleScope.ParentsFirst ∧
    ((wire lonelyBlock 1 0).After (.start lonelyBlock singleScope) fun _ s =>
      ∀ name σ found, s.table.Looks name σ found ↔ found = s.table.resolve σ name) ∧
    ((wire lonelyBlock 1 1).After (.start lonelyBlock singleScope) fun _ s =>
      ∀ found, ¬ s.table.Looks "name" 1 found) := by
  refine ⟨singleScope_parentsFirst, ?_, ?_⟩
  · exact (lookups_end_iff lonelyBlock 1 singleScope_parentsFirst).2.1 (by decide)
  · refine (lookups_end_iff lonelyBlock 1 singleScope_parentsFirst).2.2 (by decide) "name" ?_
    have hnone : (wire lonelyBlock 1 1 (.start lonelyBlock singleScope)).2.table.symbols = #[] := by
      decide
    intro id v hv
    simp [SymbolTable.symbol?, hnone] at hv

/-- The first phase can make a scope its own parent. -/
theorem lookup_can_be_endless : ¬ ∀ (ctx : Context) (table : SymbolTable) (root given : Nat),
    ctx.tree.Acyclic → table.ParentsFirst →
    (wire ctx root given).After (.start ctx table) fun _ s =>
      (∀ σ, ¬ s.table.Ancestor σ σ) ∧ ∀ σ name, ∃ found, s.table.Looks name σ found := by
  intro hall
  have hacyclic : lonelyBlock.tree.Acyclic := Tree.Acyclic.of_earlier (by decide)
  have hparent : (wire lonelyBlock 1 1 (.start lonelyBlock singleScope)).2.table.Parent 1 1 := by
    decide
  exact (hall lonelyBlock singleScope 1 1 hacyclic singleScope_parentsFirst).1 1 (.single hparent)

end ScriptTyping
