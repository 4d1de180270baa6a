import ScriptTyping.Proofs.Guards

/-!
# Where the symbols of a script come from

The symbols from `base` on are those of the script. Each of them is found again from its origin: a
declaration, the scope of a lambda, or a guard. So no two symbols share an origin.
-/

namespace ScriptTyping

open Session

variable {ctx : Context} {root i : NodeIndex} {base σ τ id : Nat} {s s' : Session}

structure Accounted (ctx : Context) (root : NodeIndex) (base : Nat) (s : Session) : Prop where
  wf : s.table.WellFormed
  base_le : base ≤ s.table.symbols.size
  source : ∀ {id : Nat} {name d c}, base ≤ id →
    s.table.symbol? id = some ⟨name, .source d c⟩ → s.declared.get? d = some id
  parameter : ∀ {id : Nat} {name l k}, base ≤ id →
    s.table.symbol? id = some ⟨name, .parameter l k⟩ →
    ctx.tree.Reaches root l ∧ ∃ σ τ ids, s.nodes.scopes? l = some ⟨σ, some τ⟩ ∧
      s.table.scope? τ = some ⟨some σ, ids⟩ ∧ id ∈ ids
  narrowed : ∀ {id o : Nat} {name g}, base ≤ id →
    s.table.symbol? id = some ⟨name, .narrowed o g⟩ →
    ctx.tree.guardName? g = some name ∧ s.truths.get? g = some [id] ∧ o < id
  host : ∀ {id : Nat} {name ty c}, base ≤ id → s.table.symbol? id ≠ some ⟨name, .host ty c⟩
  declared : ∀ {d} {id : Nat}, s.declared.get? d = some id → ctx.tree.Reaches root d ∧ base ≤ id ∧
    ∃ name c ascription initializer,
      ctx.tree.kind? d = some (.declaration name c ascription initializer) ∧
      s.table.symbol? id = some ⟨name, .source d c⟩
  truths : ∀ {g ids}, s.truths.get? g = some ids → ctx.tree.Reaches root g ∧
    ∀ name, ctx.tree.guardName? g = some name → ∀ id ∈ ids,
      ∃ o, s.table.symbol? id = some ⟨name, .narrowed o g⟩
  originals : ∀ {σ id o : Nat} {name g}, base ≤ id →
    s.table.symbol? id = some ⟨name, .narrowed o g⟩ → s.table.Sees σ id → s.table.Sees σ o

namespace Accounted

theorem start {table : SymbolTable} (hwf : table.WellFormed) :
    Accounted ctx root table.symbols.size (.start ctx table) := by
  have hnone : ∀ {id : Nat} {sym}, table.symbols.size ≤ id →
      (Session.start ctx table).table.symbol? id = some sym → False := by
    intro id sym hle hs
    exact absurd (SymbolTable.symbol_lt hs) (by simp only [Session.start]; omega)
  refine ⟨hwf, Nat.le_refl _, fun hle hs => (hnone hle hs).elim, fun hle hs => (hnone hle hs).elim,
    fun hle hs => (hnone hle hs).elim, fun hle hs => hnone hle hs, ?_, ?_,
    fun hle hs => (hnone hle hs).elim⟩
  · intro d id hd
    simp [Session.start, OrderedMap.empty, OrderedMap.get?, OrderedMap.find] at hd
  · intro g ids hg
    simp [Session.start, OrderedMap.empty, OrderedMap.get?, OrderedMap.find] at hg

/-! ## New scopes -/

theorem addScope (h : Accounted ctx root base s) (hσ : σ < s.table.scopes.size)
    {ids : List SymbolId} (hids : ∀ id ∈ ids, id < s.table.symbols.size)
    (horiginals : ∀ {id : Nat} {name o g}, id ∈ ids →
      s.table.symbol? id = some ⟨name, .narrowed o g⟩ → s.table.Sees σ o ∨ o ∈ ids) :
    Accounted ctx root base { s with table := (s.table.addScope (some σ) ids).2 } := by
  have hext := SymbolTable.extends_addScope s.table (some σ) ids
  have hwf : (s.table.addScope (some σ) ids).2.WellFormed := h.wf.addScope hσ hids
  have hnew : ∀ id, (s.table.addScope (some σ) ids).2.Sees s.table.scopes.size id ↔
      id ∈ ids ∨ s.table.Sees σ id := by
    intro id
    rw [SymbolTable.sees_iff hwf (SymbolTable.scope_addScope s.table (some σ) ids)]
    simp [hext.sees_iff h.wf hwf hσ]
  refine ⟨hwf, h.base_le, h.source, ?_, h.narrowed, h.host, h.declared, h.truths, ?_⟩
  · intro id name l k hle hs
    obtain ⟨hl, σ', τ, ids', hwired, hscope, hid⟩ := h.parameter hle hs
    exact ⟨hl, σ', τ, ids', hwired, hext.scope hscope, hid⟩
  · intro τ id o name g hle hs hsees
    obtain ⟨data, hd⟩ := SymbolTable.exists_scope hsees.scope_lt
    rcases SymbolTable.scope_addScope_cases hd with hd | ⟨rfl, -⟩
    · have hτ := SymbolTable.scope_lt hd
      rw [hext.sees_iff h.wf hwf hτ] at hsees ⊢
      exact h.originals hle hs hsees
    · rw [hnew] at hsees ⊢
      rcases hsees with hid | hsees
      · exact (horiginals hid hs).symm
      · exact Or.inr (h.originals hle hs hsees)

/-! ## New symbols -/

theorem sees_addSymbol (h : Accounted ctx root base s) {new : Symbol} :
    (s.table.addSymbol new).2.Sees σ id ↔ s.table.Sees σ id := by
  constructor
  · intro hsees
    exact ((SymbolTable.extends_addSymbol s.table new).sees_iff h.wf (h.wf.addSymbol new)
      hsees.scope_lt).mp hsees
  · intro hsees
    exact ((SymbolTable.extends_addSymbol s.table new).sees_iff h.wf (h.wf.addSymbol new)
      hsees.scope_lt).mpr hsees

theorem declare (h : Accounted ctx root base s) {d : NodeIndex} {name : String} {c : Bool}
    {ascription : Option NodeIndex} {initializer : NodeIndex} (hd : ctx.tree.Reaches root d)
    (hkind : ctx.tree.kind? d = some (.declaration name c ascription initializer))
    (hfresh : s.declared.get? d = none) :
    Accounted ctx root base { s with
      table := (s.table.addSymbol ⟨name, .source d c⟩).2
      declared := s.declared.insert d s.table.symbols.size } := by
  have hext := SymbolTable.extends_addSymbol s.table ⟨name, .source d c⟩
  have hne : ∀ {d' : NodeIndex} {id' : Nat}, s.declared.get? d' = some id' → d ≠ d' := by
    rintro d' id' hd' rfl
    simp [hfresh] at hd'
  refine ⟨h.wf.addSymbol _, Nat.le_trans h.base_le hext.symbols_le, ?_, ?_, ?_, ?_, ?_, ?_, ?_⟩
  · intro id name' d' c' hle hs
    rcases SymbolTable.symbol_addSymbol_cases hs with hs | ⟨rfl, hnew⟩
    · have hd' := h.source hle hs
      simpa only [OrderedMap.get?_insert_of_ne _ (hne hd')] using hd'
    · cases hnew
      exact OrderedMap.get?_insert_self _ _ _
  · intro id name' l k hle hs
    rcases SymbolTable.symbol_addSymbol_cases hs with hs | ⟨-, hnew⟩
    · exact h.parameter hle hs
    · cases hnew
  · intro id o name' g hle hs
    rcases SymbolTable.symbol_addSymbol_cases hs with hs | ⟨-, hnew⟩
    · exact h.narrowed hle hs
    · cases hnew
  · intro id name' ty c' hle hs
    rcases SymbolTable.symbol_addSymbol_cases hs with hs | ⟨-, hnew⟩
    · exact h.host hle hs
    · cases hnew
  · intro d' id' hd'
    by_cases hdd : d = d'
    · subst hdd
      simp only [OrderedMap.get?_insert_self, Option.some.injEq] at hd'
      subst hd'
      exact ⟨hd, h.base_le, name, c, ascription, initializer, hkind, SymbolTable.symbol_addSymbol _ _⟩
    · simp only [OrderedMap.get?_insert_of_ne _ hdd] at hd'
      obtain ⟨hr, hle, name', c', a', i', hk, hs⟩ := h.declared hd'
      exact ⟨hr, hle, name', c', a', i', hk, hext.symbol hs⟩
  · intro g ids hg
    refine ⟨(h.truths hg).1, fun name' hname id hid => ?_⟩
    obtain ⟨o, hs⟩ := (h.truths hg).2 name' hname id hid
    exact ⟨o, hext.symbol hs⟩
  · intro τ id o name' g hle hs hsees
    rcases SymbolTable.symbol_addSymbol_cases hs with hs | ⟨-, hnew⟩
    · rw [h.sees_addSymbol] at hsees ⊢
      exact h.originals hle hs hsees
    · cases hnew

theorem narrow (h : Accounted ctx root base s) {g : NodeIndex} {name : String} {o : Nat}
    (hg : ctx.tree.Reaches root g) (hname : ctx.tree.guardName? g = some name)
    (hfresh : s.truths.get? g = none) (ho : o < s.table.symbols.size) :
    Accounted ctx root base { s with
      table := (s.table.addSymbol ⟨name, .narrowed o g⟩).2
      truths := s.truths.insert g [s.table.symbols.size] } := by
  have hext := SymbolTable.extends_addSymbol s.table ⟨name, .narrowed o g⟩
  have hne : ∀ {g' : NodeIndex} {ids}, s.truths.get? g' = some ids → g ≠ g' := by
    rintro g' ids hg' rfl
    simp [hfresh] at hg'
  refine ⟨h.wf.addSymbol _, Nat.le_trans h.base_le hext.symbols_le, ?_, ?_, ?_, ?_, ?_, ?_, ?_⟩
  · intro id name' d c hle hs
    rcases SymbolTable.symbol_addSymbol_cases hs with hs | ⟨-, hnew⟩
    · exact h.source hle hs
    · cases hnew
  · intro id name' l k hle hs
    rcases SymbolTable.symbol_addSymbol_cases hs with hs | ⟨-, hnew⟩
    · exact h.parameter hle hs
    · cases hnew
  · intro id o' name' g' hle hs
    rcases SymbolTable.symbol_addSymbol_cases hs with hs | ⟨rfl, hnew⟩
    · obtain ⟨hn, ht, hlt⟩ := h.narrowed hle hs
      exact ⟨hn, by simpa only [OrderedMap.get?_insert_of_ne _ (hne ht)] using ht, hlt⟩
    · cases hnew
      exact ⟨hname, OrderedMap.get?_insert_self _ _ _, ho⟩
  · intro id name' ty c hle hs
    rcases SymbolTable.symbol_addSymbol_cases hs with hs | ⟨-, hnew⟩
    · exact h.host hle hs
    · cases hnew
  · intro d id hd
    obtain ⟨hr, hle, name', c', a', i', hk, hs⟩ := h.declared hd
    exact ⟨hr, hle, name', c', a', i', hk, hext.symbol hs⟩
  · intro g' ids hg'
    by_cases hgg : g = g'
    · subst hgg
      simp only [OrderedMap.get?_insert_self, Option.some.injEq] at hg'
      subst hg'
      refine ⟨hg, fun name' hname' id hid => ⟨o, ?_⟩⟩
      rw [hname] at hname'
      cases hname'
      rw [List.mem_singleton.mp hid]
      exact SymbolTable.symbol_addSymbol _ _
    · simp only [OrderedMap.get?_insert_of_ne _ hgg] at hg'
      refine ⟨(h.truths hg').1, fun name' hname' id hid => ?_⟩
      obtain ⟨o', hs⟩ := (h.truths hg').2 name' hname' id hid
      exact ⟨o', hext.symbol hs⟩
  · intro τ id o' name' g' hle hs hsees
    rw [h.sees_addSymbol] at hsees ⊢
    rcases SymbolTable.symbol_addSymbol_cases hs with hs | ⟨rfl, -⟩
    · exact h.originals hle hs hsees
    · exact absurd (hsees.lt h.wf) (by omega)

end Accounted

end ScriptTyping
