import ScriptTyping.Proofs.Origins

/-!
# Going through a condition

A condition that is pending becomes known, and nothing else changes. A condition that is known
already stays as it is.
-/

namespace ScriptTyping

open Session Check

variable {ctx : Context} {root c i l r : NodeIndex} {base σ τ : Nat} {s s' : Session}
  {ids : List SymbolId}

/-! ## What single writes leave as it was -/

theorem Session.Learns.of_table {t : Tree} {table : SymbolTable} (h : s.table.Extends table) :
    Learns t c s { s with table := table } :=
  ⟨⟨h, fun h => h, fun h => h, fun h => h, fun h => h, rfl, rfl, rfl, rfl, rfl⟩, rfl, rfl,
    fun _ => ⟨rfl, rfl⟩⟩

theorem Session.Learns.of_truths {t : Tree} (h : s.truths.get? c = none) (ids : List SymbolId) :
    Learns t c s { s with truths := s.truths.insert c ids } := by
  refine ⟨⟨.refl _, fun h => h, ?_, fun h => h, fun h => h, rfl, rfl, rfl, rfl, rfl⟩, rfl, rfl, ?_⟩
  · intro i ids' hi
    have hne : c ≠ i := by rintro rfl; simp [h] at hi
    simpa only [OrderedMap.get?_insert_of_ne _ hne] using hi
  · intro n hn
    have hne : c ≠ n := by rintro rfl; exact hn (.refl t c)
    exact ⟨OrderedMap.get?_insert_of_ne _ hne _, rfl⟩

theorem Session.Learns.of_conjunction {t : Tree} (h : s.conjunctions.get? c = none) (τ : ScopeId) :
    Learns t c s { s with conjunctions := s.conjunctions.insert c τ } := by
  refine ⟨⟨.refl _, fun h => h, fun h => h, ?_, fun h => h, rfl, rfl, rfl, rfl, rfl⟩, rfl, rfl, ?_⟩
  · intro i σ' hi
    have hne : c ≠ i := by rintro rfl; simp [h] at hi
    simpa only [OrderedMap.get?_insert_of_ne _ hne] using hi
  · intro n hn
    have hne : c ≠ n := by rintro rfl; exact hn (.refl t c)
    exact ⟨rfl, OrderedMap.get?_insert_of_ne _ hne _⟩

theorem Accounted.of_conjunctions (h : Accounted ctx root base s)
    (m : OrderedMap NodeIndex ScopeId) : Accounted ctx root base { s with conjunctions := m } :=
  ⟨h.wf, h.base_le, h.source, h.parameter, h.narrowed, h.host, h.declared, h.truths, h.originals⟩

theorem Accounted.of_truths (h : Accounted ctx root base s) (hc : ctx.tree.Reaches root c)
    (hname : ctx.tree.guardName? c = none ∨ ids = []) (hfresh : s.truths.get? c = none) :
    Accounted ctx root base { s with truths := s.truths.insert c ids } := by
  refine ⟨h.wf, h.base_le, h.source, h.parameter, ?_, h.host, h.declared, ?_, h.originals⟩
  · intro id o name g hle hs
    obtain ⟨hn, ht, hlt⟩ := h.narrowed hle hs
    have hne : c ≠ g := by rintro rfl; simp [hfresh] at ht
    exact ⟨hn, by simpa only [OrderedMap.get?_insert_of_ne _ hne] using ht, hlt⟩
  · intro g ids' hg
    by_cases hcg : c = g
    · subst hcg
      simp only [OrderedMap.get?_insert_self, Option.some.injEq] at hg
      subst hg
      refine ⟨hc, fun name hn id hid => ?_⟩
      rcases hname with hnone | hnil
      · simp [hnone] at hn
      · simp [hnil] at hid
    · simp only [OrderedMap.get?_insert_of_ne _ hcg] at hg
      exact h.truths hg

/-! ## The guards of a condition -/

@[simp] theorem Check.after_rememberTruths (Q : Unit → Session → Prop) :
    (rememberTruths c ids).After s Q ↔ Q () { s with truths := s.truths.insert c ids } := Iff.rfl

@[simp] theorem Check.after_rememberConjunction (Q : Unit → Session → Prop) :
    (rememberConjunction c τ).After s Q ↔
      Q () { s with conjunctions := s.conjunctions.insert c τ } := Iff.rfl

theorem narrowedScope_spec (h : Accounted ctx root base s) (hσ : σ < s.table.scopes.size)
    (hg : Guarded ctx.tree s i σ ids) :
    (narrowedScope σ ids).After s fun τ s' => ∃ table, s' = { s with table := table } ∧
      s.table.Extends table ∧ Accounted ctx root base s' ∧ s'.Narrows σ τ ids := by
  unfold narrowedScope
  split
  · rename_i hempty
    exact ⟨s.table, rfl, .refl _, h, Or.inl ⟨List.isEmpty_iff.mp hempty, rfl⟩⟩
  · rename_i hne
    have hids : ∀ id ∈ ids.reverse, id < s.table.symbols.size := by
      intro id hid
      obtain ⟨name, o, g, hs, -⟩ := hg.originals h.wf (List.mem_reverse.mp hid)
      exact SymbolTable.symbol_lt hs
    refine ⟨_, rfl, SymbolTable.extends_addScope _ _ _, h.addScope hσ hids ?_, Or.inr ⟨?_, ?_⟩⟩
    · intro id name o g hid hs
      obtain ⟨name', o', g', hs', hor⟩ := hg.originals h.wf (List.mem_reverse.mp hid)
      rw [hs] at hs'
      cases hs'
      exact hor.imp_right List.mem_reverse.mpr
    · intro hnil
      exact hne (by simp [hnil])
    · exact SymbolTable.scope_addScope _ _ _

theorem narrowName_spec (h : Accounted ctx root base s) {name : String}
    (hi : ctx.tree.Reaches root i) (hname : ctx.tree.guardName? i = some name)
    (hfresh : s.truths.get? i = none) (hσ : σ < s.table.scopes.size) :
    (do let ids ← narrowName name i σ; rememberTruths i ids; pure ids).After s fun ids s' =>
      Learns ctx.tree i s s' ∧ Accounted ctx root base s' ∧ s'.truths.get? i = some ids ∧
        s'.Narrowing σ name i ids ∧ ∀ n, n ≠ i → s'.truths.get? n = s.truths.get? n ∧
          s'.conjunctions.get? n = s.conjunctions.get? n := by
  have hframe : ∀ ids n, n ≠ i → (s.truths.insert i ids).get? n = s.truths.get? n ∧
      s.conjunctions.get? n = s.conjunctions.get? n := fun ids n hn =>
    ⟨OrderedMap.get?_insert_of_ne _ (Ne.symm hn) _, rfl⟩
  have hnone : s.Narrowing σ name i [] →
      Learns ctx.tree i s { s with truths := s.truths.insert i [] } ∧
      Accounted ctx root base { s with truths := s.truths.insert i [] } :=
    fun _ => ⟨.of_truths hfresh _, h.of_truths hi (Or.inr rfl) hfresh⟩
  unfold narrowName rememberTruths
  simp only [after_bind, after_get]
  cases ho : s.table.resolve σ name with
  | none =>
    have hn : s.Narrowing σ name i [] := by simp [Narrowing, ho]
    exact ⟨(hnone hn).1, (hnone hn).2, OrderedMap.get?_insert_self _ _ _, hn, hframe []⟩
  | some o =>
    simp only
    split
    · rename_i hc
      have hlt : o < s.table.symbols.size := (SymbolTable.sees_of_resolve ho).1.lt h.wf
      have hext := SymbolTable.extends_addSymbol s.table ⟨name, .narrowed o i⟩
      have htable : Learns ctx.tree i s
          { s with table := (s.table.addSymbol ⟨name, .narrowed o i⟩).2 } := .of_table hext
      have htruths := Learns.of_truths (t := ctx.tree) (s := { s with
        table := (s.table.addSymbol ⟨name, .narrowed o i⟩).2 }) hfresh [s.table.symbols.size]
      have hnarrow : Narrowing { s with
          table := (s.table.addSymbol ⟨name, .narrowed o i⟩).2 } σ name i [s.table.symbols.size] := by
        unfold Narrowing
        simp only [hext.resolve_eq h.wf hσ, ho, hext.isConst_eq hlt, hc, if_true]
        exact ⟨_, rfl, SymbolTable.symbol_addSymbol _ _⟩
      exact ⟨htable.trans htruths, h.narrow hi hname hfresh hlt, OrderedMap.get?_insert_self _ _ _,
        hnarrow, hframe _⟩
    · rename_i hc
      have hn : s.Narrowing σ name i [] := by simp [Narrowing, ho, hc]
      exact ⟨(hnone hn).1, (hnone hn).2, OrderedMap.get?_insert_self _ _ _, hn, hframe []⟩

theorem Session.Guarded.truth_of_some {known : List SymbolId} (h : Guarded ctx.tree s c σ ids)
    (hknown : s.truths.get? c = some known) : known = ids := by
  cases h with
  | free _ _ htruth _ => simp [htruth] at hknown
  | guard _ htruth _ _ => simpa [htruth] using hknown.symm
  | both _ _ _ _ _ htruth => simpa [htruth] using hknown.symm

theorem Session.Guarded.free_of_none (h : Guarded ctx.tree s c σ ids)
    (hnone : s.truths.get? c = none) : ids = [] ∧
      (∀ l r, ctx.tree.kind? c ≠ some (.conjunction l r)) ∧ ctx.tree.guardName? c = none := by
  cases h with
  | free hkind hname _ _ => exact ⟨rfl, hkind, hname⟩
  | guard _ htruth _ _ => simp [htruth] at hnone
  | both _ _ _ _ _ htruth => simp [htruth] at hnone

theorem truthsWithin_conjunction (hp : ctx.tree.Proper root) {fuel : Nat}
    (hc : ctx.tree.Reaches root c) (hkind : ctx.tree.kind? c = some (.conjunction l r))
    (h : Accounted ctx root base s) (hσ : σ < s.table.scopes.size)
    (hfresh : ∀ n, ctx.tree.Reaches c n → s.Untouched n)
    (ih : ∀ {d σ' s'}, ctx.tree.Child c d → Accounted ctx root base s' →
      σ' < s'.table.scopes.size → Pending ctx.tree s' d σ' →
      (truthsWithin ctx fuel d σ').After s' fun ids s'' => Learns ctx.tree d s' s'' ∧
        Accounted ctx root base s'' ∧ Guarded ctx.tree s'' d σ' ids) :
    (do
      let left ← truthsWithin ctx fuel l σ
      let rightScope ← narrowedScope σ left
      rememberConjunction c rightScope
      let right ← truthsWithin ctx fuel r rightScope
      rememberTruths c (left ++ right)
      pure (left ++ right)).After s fun ids s' => Learns ctx.tree c s s' ∧
        Accounted ctx root base s' ∧ Guarded ctx.tree s' c σ ids := by
  have hl : ctx.tree.Child c l := (Tree.child_of_kind hkind).mpr (by simp [NodeKind.children])
  have hr : ctx.tree.Child c r := (Tree.child_of_kind hkind).mpr (by simp [NodeKind.children])
  have hlr : l ≠ r := by
    have hnodup := hp.one_slot hc
    rw [Tree.children_of_kind hkind] at hnodup
    simpa [NodeKind.children] using hnodup
  simp only [after_bind, after_rememberTruths, after_rememberConjunction, after_pure]
  refine (ih hl h hσ (Or.inl fun n hn => hfresh n (hl.reaches.trans hn))).mono ?_
  rintro left s1 ⟨hlearn1, hacc1, hguard1⟩
  have hσ1 := Nat.lt_of_lt_of_le hσ hlearn1.grows.table.scopes_le
  refine (narrowedScope_spec hacc1 hσ1 hguard1).mono ?_
  rintro τ s2 ⟨table, rfl, hext, hacc2, hnarrows⟩
  -- Neither operand reaches the conjunction, nor the right one what is below the left one.
  have hlc : ¬ ctx.tree.Reaches l c := hp.not_reaches_of_above hc hl.above
  have hrc : ¬ ctx.tree.Reaches r c := hp.not_reaches_of_above hc hr.above
  have hrl : ∀ {n}, ctx.tree.Reaches r n → ¬ ctx.tree.Reaches l n := fun hn hn' =>
    hlr (hp.siblings_apart hc hl hr hn' hn)
  have hu1 : s1.Untouched c := hlearn1.untouched hlc (hfresh c (.refl _ _))
  have hlearn2 : Learns ctx.tree c s1 { s1 with table := table } := .of_table hext
  have hlearn3 := Learns.of_conjunction (t := ctx.tree) (s := { s1 with table := table }) hu1.2 τ
  have hacc3 := hacc2.of_conjunctions (s1.conjunctions.insert c τ)
  have hpending : Pending ctx.tree
      { s1 with table := table, conjunctions := s1.conjunctions.insert c τ } r τ := by
    refine Or.inl fun n hn => ?_
    have hne : c ≠ n := by rintro rfl; exact hrc hn
    have hu := hlearn1.untouched (hrl hn) (hfresh n (hr.reaches.trans hn))
    exact ⟨hu.1, (OrderedMap.get?_insert_of_ne _ hne _).trans hu.2⟩
  have hσ3 : τ < table.scopes.size :=
    hnarrows.scope_lt (Nat.lt_of_lt_of_le hσ1 hext.scopes_le)
  refine (ih hr hacc3 hσ3 hpending).mono ?_
  rintro right s4 ⟨hlearn4, hacc4, hguard4⟩
  have hnone4 : s4.truths.get? c = none := (hlearn4.frame hrc).1.trans hu1.1
  have hlearn5 := Learns.of_truths (t := ctx.tree) hnone4 (left ++ right)
  have hext4 : s1.table.Extends s4.table := hext.trans hlearn4.grows.table
  refine ⟨(hlearn1.lift hl.reaches).trans (hlearn2.trans (hlearn3.trans
    ((hlearn4.lift hr.reaches).trans hlearn5))), hacc4.of_truths hc
      (Or.inl (guardName_of_conjunction hkind)) hnone4, ?_⟩
  refine .both hkind ?_ ((hnarrows.mono hlearn4.grows.table).mono (.refl _))
    (hlearn4.grows.conjunctions (OrderedMap.get?_insert_self _ _ _)) ?_
    (OrderedMap.get?_insert_self _ _ _)
  · refine hguard1.mono hext4 hacc1.wf hσ1 fun n hn => ?_
    have hcn : c ≠ n := by rintro rfl; exact hlc hn
    have hframe := hlearn4.frame fun hn' => hrl hn' hn
    exact ⟨(OrderedMap.get?_insert_of_ne _ hcn _).trans hframe.1,
      hframe.2.trans (OrderedMap.get?_insert_of_ne _ hcn _)⟩
  · refine hguard4.mono (.refl _) hacc4.wf (Nat.lt_of_lt_of_le hσ3 hlearn4.grows.table.scopes_le)
      fun n hn => ?_
    have hcn : c ≠ n := by rintro rfl; exact hrc hn
    exact ⟨OrderedMap.get?_insert_of_ne _ hcn _, rfl⟩

theorem truthsWithin_spec (hp : ctx.tree.Proper root) {fuel : Nat} (hc : ctx.tree.Reaches root c)
    (hfuel : ctx.tree.extent c ≤ fuel) (h : Accounted ctx root base s)
    (hσ : σ < s.table.scopes.size) (hpending : Pending ctx.tree s c σ) :
    (truthsWithin ctx fuel c σ).After s fun ids s' => Learns ctx.tree c s s' ∧
      Accounted ctx root base s' ∧ Guarded ctx.tree s' c σ ids := by
  induction fuel generalizing c σ s with
  | zero => exact absurd (hp.extent_pos hc) (by omega)
  | succ fuel ih =>
    unfold truthsWithin
    simp only [after_bind, after_get]
    have hbelow : ∀ n, ctx.tree.Above c n → n ≠ c := by
      rintro n hn rfl
      exact hp.acyclic hc hn
    split
    · rename_i known hknown
      rcases hpending with hfresh | ⟨ids, hguard⟩
      · simp [(hfresh c (.refl _ _)).1] at hknown
      · rw [hguard.truth_of_some hknown]
        exact ⟨.refl _ _ _, h, hguard⟩
    · rename_i hnone
      rcases hpending with hfresh | ⟨ids, hguard⟩
      · have hfree : (∀ l r, ctx.tree.kind? c ≠ some (.conjunction l r)) →
            ctx.tree.guardName? c = none → Guarded ctx.tree s c σ [] := fun hkind hname =>
          .free hkind hname hnone fun n hn => hfresh n hn.reaches
        split
        · rename_i operand target hk
          split
          · rename_i hname
            exact ⟨.refl _ _ _, h, hfree (by simp [hk]) (by simp [Tree.guardName?, hk, hname])⟩
          · rename_i name hname
            have hguardName : ctx.tree.guardName? c = some name := by
              simp [Tree.guardName?, hk, hname]
            refine (narrowName_spec h hc hguardName hnone hσ).mono ?_
            rintro ids s' ⟨hlearn, hacc, htruth, hnarrow, hframe⟩
            refine ⟨hlearn, hacc, .guard hguardName htruth hnarrow fun n hn => ?_⟩
            obtain ⟨h1, h2⟩ := hframe n (hbelow n hn)
            exact ⟨h1.trans (hfresh n hn.reaches).1, h2.trans (hfresh n hn.reaches).2⟩
        · rename_i l r hk
          refine truthsWithin_conjunction hp hc hk h hσ hfresh ?_
          intro d σ' s' hd hacc' hσ' hpending'
          have hlt := hp.extent_lt hc hd
          exact ih (hc.tail hd) (by omega) hacc' hσ' hpending'
        · rename_i hkind hkind'
          refine ⟨.refl _ _ _, h, hfree hkind' ?_⟩
          unfold Tree.guardName?
          split
          · rename_i hk
            exact absurd hk (hkind _ _)
          · rfl
      · obtain ⟨rfl, hkind, hname⟩ := hguard.free_of_none hnone
        split
        · rename_i operand target hk
          have hoperand : ctx.tree.identifier? operand = none := by
            simpa [Tree.guardName?, hk] using hname
          simp only [hoperand]
          exact ⟨.refl _ _ _, h, hguard⟩
        · rename_i l r hk
          exact absurd hk (hkind l r)
        · exact ⟨.refl _ _ _, h, hguard⟩

theorem truths_spec (hp : ctx.tree.Proper root) (hc : ctx.tree.Reaches root c)
    (h : Accounted ctx root base s) (hσ : σ < s.table.scopes.size)
    (hpending : Pending ctx.tree s c σ) :
    (truths ctx c σ).After s fun ids s' => Learns ctx.tree c s s' ∧
      Accounted ctx root base s' ∧ Guarded ctx.tree s' c σ ids :=
  truthsWithin_spec hp hc (ctx.tree.extent_le_size c) h hσ hpending

end ScriptTyping
