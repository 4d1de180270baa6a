import Mathlib.Data.List.Basic
import Mathlib.Data.List.Find
import ScriptTyping.SymbolTable

/-!
# Symbols that a scope sees

A scope sees what it lists itself and what its parents see. Tables only grow, so what a scope sees
never changes.
-/

namespace ScriptTyping.SymbolTable

-- Ids are written as numbers here, for `omega`.
variable {t t' : SymbolTable} {σ τ p id : Nat} {data : Scope} {s : Symbol}

/-- Some scope on the chain of parents lists the symbol. -/
def Sees (t : SymbolTable) (scope : ScopeId) (id : SymbolId) : Prop :=
  ∃ σ ∈ t.chain scope, ∃ data, t.scope? σ = some data ∧ id ∈ data.symbols

/-- Parents come before their children, and listed symbols exist. -/
structure WellFormed (t : SymbolTable) : Prop where
  parent_lt : ∀ {σ p : Nat} {data}, t.scope? σ = some data → data.parent = some p → p < σ
  listed_lt : ∀ {σ id : Nat} {data}, t.scope? σ = some data → id ∈ data.symbols →
    id < t.symbols.size

theorem symbol_lt (h : t.symbol? id = some s) : id < t.symbols.size :=
  (Array.getElem?_eq_some_iff.mp h).choose

theorem scope_lt (h : t.scope? σ = some data) : σ < t.scopes.size :=
  (Array.getElem?_eq_some_iff.mp h).choose

theorem exists_symbol (h : id < t.symbols.size) : ∃ s, t.symbol? id = some s :=
  ⟨t.symbols[id], Array.getElem?_eq_getElem h⟩

theorem exists_scope (h : σ < t.scopes.size) : ∃ data, t.scope? σ = some data :=
  ⟨t.scopes[σ], Array.getElem?_eq_getElem h⟩

/-! ## The chain of a scope -/

theorem chainWithin_eq (h : t.WellFormed) {n m : Nat} (hn : σ < n) (hm : σ < m) :
    t.chainWithin n σ = t.chainWithin m σ := by
  induction n generalizing m σ with
  | zero => omega
  | succ n ih =>
    obtain ⟨m, rfl⟩ : ∃ k, m = k + 1 := ⟨m - 1, by omega⟩
    unfold chainWithin
    cases hd : t.scope? σ with
    | none => rfl
    | some data =>
      cases hp : data.parent with
      | none => simp only [hp]
      | some p =>
        have hlt := h.parent_lt hd hp
        simp only [hp]
        rw [ih (m := m) (by omega) (by omega)]

theorem chain_eq (h : t.WellFormed) (hd : t.scope? σ = some data) :
    t.chain σ = σ :: (data.parent.map t.chain).getD [] := by
  have hσ : σ < t.scopes.size := scope_lt hd
  unfold chain
  rw [chainWithin_eq h hσ (show σ < t.scopes.size + 1 by omega)]
  conv => lhs; unfold chainWithin
  cases hp : data.parent with
  | none => simp only [hd, hp, Option.map_none, Option.getD_none]
  | some p => simp only [hd, hp, Option.map_some, Option.getD_some]

theorem sees_iff (h : t.WellFormed) (hd : t.scope? σ = some data) :
    t.Sees σ id ↔ id ∈ data.symbols ∨ ∃ p, data.parent = some p ∧ t.Sees p id := by
  unfold Sees
  rw [chain_eq h hd]
  cases hp : data.parent with
  | none => simp [hd]
  | some p => simp [hd]

theorem resolve_child (h : t.WellFormed) {ids : List SymbolId}
    (hd : t.scope? σ = some ⟨some p, ids⟩) (name : String) :
    t.resolve σ name = (ids.find? (t.isNamed name)).or (t.resolve p name) := by
  unfold resolve
  rw [chain_eq h hd]
  simp only [Option.map_some, Option.getD_some, List.findSome?_cons, resolveIn, hd,
    Option.bind_some]
  cases ids.find? (t.isNamed name) <;> rfl

theorem scope_of_mem_chainWithin {n : Nat} (h : τ ∈ t.chainWithin n σ) :
    ∃ data, t.scope? τ = some data := by
  induction n generalizing σ with
  | zero => simp [chainWithin] at h
  | succ n ih =>
    unfold chainWithin at h
    cases hd : t.scope? σ with
    | none => simp [hd] at h
    | some data =>
      cases hp : data.parent with
      | none =>
        simp only [hd, hp, List.mem_singleton] at h
        exact ⟨data, h ▸ hd⟩
      | some p =>
        simp only [hd, hp, List.mem_cons] at h
        rcases h with rfl | h
        · exact ⟨data, hd⟩
        · exact ih h

theorem scope_of_mem_chain (h : τ ∈ t.chain σ) : ∃ data, t.scope? τ = some data :=
  scope_of_mem_chainWithin h

theorem Sees.scope_lt (h : t.Sees σ id) : σ < t.scopes.size := by
  obtain ⟨τ, hτ, -⟩ := h
  by_contra hge
  have hnone : t.scope? σ = none := Array.getElem?_eq_none (by omega)
  unfold chain at hτ
  cases hsize : t.scopes.size with
  | zero => simp [hsize, chainWithin] at hτ
  | succ n => simp [hsize, chainWithin, hnone] at hτ

theorem Sees.lt (h : t.Sees σ id) (hwf : t.WellFormed) : id < t.symbols.size := by
  obtain ⟨τ, -, data, hd, hid⟩ := h
  exact hwf.listed_lt hd hid

theorem sees_of_resolve {name : String} (h : t.resolve σ name = some id) :
    t.Sees σ id ∧ ∃ s, t.symbol? id = some s ∧ s.name = name := by
  unfold resolve at h
  obtain ⟨τ, hτ, hin⟩ := List.exists_of_findSome?_eq_some h
  unfold resolveIn at hin
  obtain ⟨data, hd, hfind⟩ := Option.bind_eq_some_iff.mp hin
  refine ⟨⟨τ, hτ, data, hd, List.mem_of_find?_eq_some hfind⟩, ?_⟩
  have hnamed := List.find?_some hfind
  unfold isNamed at hnamed
  split at hnamed
  · rename_i s hs
    exact ⟨s, hs, by simpa using hnamed⟩
  · simp at hnamed

/-! ## Tables that grow -/

/-- `t'` has everything that `t` has, in the same places. -/
structure Extends (t t' : SymbolTable) : Prop where
  symbol : ∀ {id : Nat} {s}, t.symbol? id = some s → t'.symbol? id = some s
  scope : ∀ {σ : Nat} {data}, t.scope? σ = some data → t'.scope? σ = some data

theorem Extends.refl (t : SymbolTable) : t.Extends t := ⟨fun h => h, fun h => h⟩

theorem Extends.trans {t'' : SymbolTable} (h : t.Extends t') (h' : t'.Extends t'') :
    t.Extends t'' :=
  ⟨fun hs => h'.symbol (h.symbol hs), fun hs => h'.scope (h.scope hs)⟩

theorem Extends.symbols_le (h : t.Extends t') : t.symbols.size ≤ t'.symbols.size := by
  by_contra hge
  have hlt : t'.symbols.size < t.symbols.size := by omega
  obtain ⟨s, hs⟩ := exists_symbol hlt
  exact absurd (symbol_lt (h.symbol hs)) (by omega)

theorem Extends.symbol_of_lt (h : t.Extends t') (hlt : id < t.symbols.size) {s : Symbol}
    (hs : t'.symbol? id = some s) : t.symbol? id = some s := by
  obtain ⟨s', hs'⟩ := exists_symbol hlt
  rwa [h.symbol hs', ← hs'] at hs

theorem Extends.scopes_le (h : t.Extends t') : t.scopes.size ≤ t'.scopes.size := by
  by_contra hge
  have hlt : t'.scopes.size < t.scopes.size := by omega
  obtain ⟨data, hd⟩ := exists_scope hlt
  exact absurd (scope_lt (h.scope hd)) (by omega)

theorem Extends.sees_iff (h : t.Extends t') (hwf : t.WellFormed) (hwf' : t'.WellFormed)
    (hσ : σ < t.scopes.size) : t'.Sees σ id ↔ t.Sees σ id := by
  induction σ using Nat.strongRecOn with
  | _ σ ih =>
    obtain ⟨data, hd⟩ := exists_scope hσ
    rw [SymbolTable.sees_iff hwf hd, SymbolTable.sees_iff hwf' (h.scope hd)]
    refine or_congr Iff.rfl (exists_congr fun p => and_congr_right fun hp => ?_)
    have hlt := hwf.parent_lt hd hp
    exact ih p hlt (by omega)

theorem Extends.chainWithin_eq (h : t.Extends t') (hwf : t.WellFormed) (hσ : σ < t.scopes.size)
    (n : Nat) : t'.chainWithin n σ = t.chainWithin n σ := by
  induction n generalizing σ with
  | zero => rfl
  | succ n ih =>
    obtain ⟨data, hd⟩ := exists_scope hσ
    unfold chainWithin
    cases hp : data.parent with
    | none => simp only [hd, h.scope hd, hp]
    | some p =>
      have hlt := hwf.parent_lt hd hp
      simp only [hd, h.scope hd, hp]
      rw [ih (by omega)]

theorem Extends.isConst_eq (h : t.Extends t') (hid : id < t.symbols.size) :
    t'.isConst id = t.isConst id := by
  obtain ⟨s, hs⟩ := exists_symbol hid
  simp only [isConst, hs, h.symbol hs]

theorem Extends.resolve_eq (h : t.Extends t') (hwf : t.WellFormed) (hσ : σ < t.scopes.size)
    (name : String) : t'.resolve σ name = t.resolve σ name := by
  have hle := h.scopes_le
  have hchain : t'.chain σ = t.chain σ := by
    unfold chain
    rw [h.chainWithin_eq hwf hσ, SymbolTable.chainWithin_eq hwf (show σ < t'.scopes.size by omega) hσ]
  have hin : ∀ τ ∈ t.chain σ, t'.resolveIn name τ = t.resolveIn name τ := by
    intro τ hτ
    obtain ⟨data, hd⟩ := scope_of_mem_chain hτ
    simp only [resolveIn, hd, h.scope hd, Option.bind_some]
    apply List.find?_congr
    intro id hid
    obtain ⟨s, hs⟩ := exists_symbol (hwf.listed_lt hd hid)
    simp only [isNamed, hs, h.symbol hs]
  unfold resolve
  rw [hchain, ← List.head?_filterMap, ← List.head?_filterMap, List.filterMap_congr hin]

theorem extends_addSymbol (t : SymbolTable) (s : Symbol) : t.Extends (t.addSymbol s).2 := by
  constructor
  · intro id s' h
    have hlt := symbol_lt h
    simp only [addSymbol, symbol?] at h ⊢
    rw [Array.getElem?_push_lt hlt, ← h, Array.getElem?_eq_getElem hlt]
  · intro σ data h
    exact h

theorem extends_addScope (t : SymbolTable) (parent : Option ScopeId) (symbols : List SymbolId) :
    t.Extends (t.addScope parent symbols).2 := by
  constructor
  · intro id s h
    exact h
  · intro σ data h
    have hlt := scope_lt h
    simp only [addScope, scope?] at h ⊢
    rw [Array.getElem?_push_lt hlt, ← h, Array.getElem?_eq_getElem hlt]

theorem symbol_addSymbol (t : SymbolTable) (s : Symbol) :
    (t.addSymbol s).2.symbol? t.symbols.size = some s := by
  simp [addSymbol, symbol?]

theorem scope_addScope (t : SymbolTable) (parent : Option ScopeId) (symbols : List SymbolId) :
    (t.addScope parent symbols).2.scope? t.scopes.size = some ⟨parent, symbols⟩ := by
  simp [addScope, scope?]

theorem symbol_addSymbol_cases {new : Symbol} (h : (t.addSymbol new).2.symbol? id = some s) :
    t.symbol? id = some s ∨ id = t.symbols.size ∧ s = new := by
  simp only [addSymbol, symbol?, Array.getElem?_push] at h
  split at h
  · rename_i heq
    exact Or.inr ⟨heq, by simpa using h.symm⟩
  · exact Or.inl h

theorem scope_addScope_cases {parent : Option ScopeId} {symbols : List SymbolId}
    (h : (t.addScope parent symbols).2.scope? σ = some data) :
    t.scope? σ = some data ∨ σ = t.scopes.size ∧ data = ⟨parent, symbols⟩ := by
  simp only [addScope, scope?, Array.getElem?_push] at h
  split at h
  · rename_i heq
    exact Or.inr ⟨heq, by simpa using h.symm⟩
  · exact Or.inl h

theorem WellFormed.addSymbol (h : t.WellFormed) (s : Symbol) : (t.addSymbol s).2.WellFormed := by
  constructor
  · intro σ p data hd hp
    exact h.parent_lt hd hp
  · intro σ id data hd hid
    have hlt : id < t.symbols.size := h.listed_lt hd hid
    simp only [SymbolTable.addSymbol, Array.size_push]
    omega

theorem WellFormed.addScope (h : t.WellFormed) (hp : p < t.scopes.size) {symbols : List SymbolId}
    (hs : ∀ id ∈ symbols, id < t.symbols.size) : (t.addScope (some p) symbols).2.WellFormed := by
  constructor
  · intro σ q data hd hq
    rcases scope_addScope_cases hd with hd | ⟨rfl, rfl⟩
    · exact h.parent_lt hd hq
    · cases hq
      exact hp
  · intro σ id data hd hid
    rcases scope_addScope_cases hd with hd | ⟨rfl, rfl⟩
    · exact h.listed_lt hd hid
    · exact hs id hid

/-! ## Tables of the host -/

/-- A scope without parent in a table that has only symbols of the host. -/
structure HostScope (t : SymbolTable) (σ : ScopeId) : Prop where
  wf : t.WellFormed
  scope : ∃ ids, t.scope? σ = some ⟨none, ids⟩
  host : ∀ {id : Nat} {s}, t.symbol? id = some s → ∃ ty c, s.origin = .host ty c

theorem HostScope.lt (h : t.HostScope σ) : σ < t.scopes.size := by
  obtain ⟨ids, hd⟩ := h.scope
  exact scope_lt hd

theorem addSymbols_spec (t : SymbolTable) (ss : List Symbol) :
    t.Extends (t.addSymbols ss).2 ∧ (t.addSymbols ss).2.scopes = t.scopes ∧
      (∀ id ∈ (t.addSymbols ss).1, id < (t.addSymbols ss).2.symbols.size) ∧
      ∀ {id : Nat} {s}, (t.addSymbols ss).2.symbol? id = some s → t.symbol? id = some s ∨ s ∈ ss := by
  induction ss generalizing t with
  | nil => exact ⟨.refl t, rfl, by simp [addSymbols], fun h => Or.inl h⟩
  | cons s ss ih =>
    obtain ⟨hext, hscopes, hlt, hcases⟩ := ih (t.addSymbol s).2
    refine ⟨(extends_addSymbol t s).trans hext, hscopes, ?_, ?_⟩
    · intro id hid
      rcases List.mem_cons.mp hid with rfl | hid
      · exact symbol_lt (hext.symbol (symbol_addSymbol t s))
      · exact hlt id hid
    · intro id s' hs'
      rcases hcases hs' with hs' | hmem
      · rcases symbol_addSymbol_cases hs' with hold | ⟨-, rfl⟩
        · exact Or.inl hold
        · exact Or.inr List.mem_cons_self
      · exact Or.inr (List.mem_cons_of_mem _ hmem)

theorem hostScope_spec (values : List (String × Ty)) :
    (hostScope {} values).2.HostScope (hostScope {} values).1 := by
  obtain ⟨-, hscopes, hlt, hcases⟩ :=
    addSymbols_spec {} (values.map fun v => Symbol.host v.1 v.2)
  have hscope := scope_addScope (addSymbols {} (values.map fun v => Symbol.host v.1 v.2)).2 none
    (addSymbols {} (values.map fun v => Symbol.host v.1 v.2)).1
  have honly : ∀ {σ : Nat} {data}, (hostScope {} values).2.scope? σ = some data →
      data = ⟨none, (addSymbols {} (values.map fun v => Symbol.host v.1 v.2)).1⟩ := by
    intro σ data hd
    rcases scope_addScope_cases hd with hd | ⟨-, hnew⟩
    · simp [scope?, hscopes] at hd
    · exact hnew
  refine ⟨⟨?_, ?_⟩, ⟨_, hscope⟩, ?_⟩
  · intro σ p data hd hp
    simp [honly hd] at hp
  · intro σ id data hd hid
    rw [honly hd] at hid
    exact hlt id hid
  · intro id s hs
    rcases hcases hs with hs | hmem
    · simp [symbol?] at hs
    · obtain ⟨v, -, rfl⟩ := List.mem_map.mp hmem
      exact ⟨v.2, true, rfl⟩

end ScriptTyping.SymbolTable
