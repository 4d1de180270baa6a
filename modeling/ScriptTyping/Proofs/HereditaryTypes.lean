import ScriptTyping.Inference
import ScriptTyping.Members
import ScriptTyping.Proofs.TypeParts

/-!
# Hereditary properties of types

A property that passes to what stands inside a type, and that substitution and common supertypes
keep. If the definitions have it, so has whatever is looked up in them or inferred by them.
-/

namespace ScriptTyping

/-! ## Substitutions -/

namespace Substitution

variable {P : Ty → Prop} {s : Substitution}

/-- Whatever replaces a parameter has the property. -/
def All (P : Ty → Prop) (s : Substitution) : Prop := ∀ name t, s.get? name = some t → P t

theorem all_empty : All P .empty := by
  intro name t h
  simp [OrderedMap.get?, OrderedMap.empty, OrderedMap.find] at h

theorem All.insert (h : s.All P) {name : String} {t : Ty} (ht : P t) :
    All P (OrderedMap.insert s name t) := by
  intro other u hu
  rw [OrderedMap.get?_insert] at hu
  split at hu
  · cases hu
    exact ht
  · exact h other u hu

theorem All.without (h : s.All P) (shadowed : List TypeParam) : (s.without shadowed).All P := by
  unfold Substitution.without
  refine List.foldlRecOn _ _ h ?_
  intro s' h' p _ name t ht
  rw [OrderedMap.get?_erase] at ht
  split at ht
  · cases ht
  · exact h' name t ht

theorem all_ofParams (params : List TypeParam) {args : List Ty} (h : ∀ t ∈ args, P t) :
    (ofParams params args).All P := by
  unfold ofParams OrderedMap.ofList
  refine List.foldlRecOn _ _ all_empty ?_
  intro s hs p hp
  exact hs.insert (h p.2 (List.of_mem_zip hp).2)

end Substitution

/-! ## Looking up -/

def MemberTable.All (P : Ty → Prop) (table : MemberTable) : Prop :=
  ∀ e ∈ table.entries, ∀ m ∈ e.2, P m.ty

namespace Definitions

structure Hereditary (ds : Definitions) (P : Ty → Prop) : Prop where
  component : ∀ {t c}, P t → c ∈ t.components → P c
  instantiate : ∀ {t s}, P t → Substitution.All P s → P (t.instantiate s)
  supertype : ∀ {t u}, P t → P u → P (ds.commonSupertype t u)
  base : ∀ {id d b}, ds.get? id = some d → d.base = some b → P b
  member : ∀ {id d m}, ds.get? id = some d → m ∈ d.members → P m.ty

theorem mem_getD_nil {o : Option (List Member)} {m : Member} (h : m ∈ o.getD []) :
    ∃ ms, o = some ms ∧ m ∈ ms := by
  cases o with
  | none => simp at h
  | some ms => exact ⟨ms, rfl, h⟩

theorem bind_eq_ok {ds : Definitions} {generic bound : Ty} {ts : List Ty}
    (h : ds.bind generic ts = .ok bound) : ∃ id name d, generic = .nominal id name none ∧
      ds.get? id = some d ∧ d.isGeneric = true ∧ d.arity = ts.length ∧
      bound = .nominal id name (some ts) := by
  unfold bind at h
  split at h
  · rename_i id name args
    split at h
    · cases h
    · rename_i d hd
      split at h
      · cases h
      · rename_i hgeneric
        split at h
        · cases h
        · rename_i harity
          cases h
          simp only [Bool.or_eq_true, Bool.not_eq_true', not_or, Bool.not_eq_false,
            Option.not_isSome_iff_eq_none] at hgeneric
          obtain ⟨hgeneric, rfl⟩ := hgeneric
          exact ⟨id, name, d, rfl, hd, hgeneric, Decidable.not_not.mp harity, rfl⟩
  · cases h

theorem addLevel_all {P : Ty → Prop} {table : MemberTable} {members : List Member}
    (htable : table.All P) (hmembers : ∀ m ∈ members, P m.ty) : (addLevel table members).All P := by
  unfold addLevel
  refine List.foldlRecOn _ _ htable ?_
  intro table' htable' m hm e he
  rcases OrderedMap.mem_put he with rfl | he
  · intro m' hm'
    rcases List.mem_append.mp hm' with hm' | hm'
    · obtain ⟨defs, hdefs, hm'⟩ := mem_getD_nil hm'
      exact htable' _ (OrderedMap.mem_of_find hdefs) m' hm'
    · rw [List.mem_singleton.mp hm']
      exact hmembers m (List.mem_of_mem_filter hm)
  · exact htable' e he

theorem intersect_all {ds : Definitions} {P : Ty → Prop} {tables : List MemberTable}
    (h : ∀ table ∈ tables, table.All P) : (ds.intersect tables).All P := by
  unfold intersect
  cases tables with
  | nil => simp [MemberTable.All, OrderedMap.empty]
  | cons first rest =>
    refine List.foldlRecOn _ _ ?_ ?_
    · exact fun e he => h first (by simp) e (List.mem_of_mem_filter he)
    · exact fun table htable other _ e he => htable e (List.mem_of_mem_filter he)

namespace Hereditary

variable {ds : Definitions} {P : Ty → Prop} {id : DefId} {name : String} {args : Option (List Ty)}
  {t : Ty} (h : ds.Hereditary P)

include h

theorem argSubstitution (ht : P (.nominal id name args)) : (ds.argSubstitution id args).All P := by
  unfold Definitions.argSubstitution
  split
  · exact Substitution.all_ofParams _ fun u hu => h.component ht hu
  · exact Substitution.all_empty

theorem membersOf (ht : P (.nominal id name args)) {m : Member} (hm : m ∈ ds.membersOf id args) :
    P m.ty := by
  unfold Definitions.membersOf at hm
  split at hm
  · simp at hm
  · rename_i d hd
    obtain ⟨m', hm', rfl⟩ := List.mem_map.mp hm
    exact h.instantiate (h.member hd hm') ((h.argSubstitution ht).without _)

theorem baseOf (ht : P (.nominal id name args)) {base : Ty}
    (hbase : ds.baseOf id args = some base) : P base := by
  unfold Definitions.baseOf at hbase
  split at hbase
  · simp at hbase
  · rename_i d hd
    obtain ⟨b, hb, rfl⟩ := Option.map_eq_some_iff.mp hbase
    exact h.instantiate (h.base hd hb) (h.argSubstitution ht)

theorem ascend {β : Type} {look : DefId → String → Option (List Ty) → Option β} {levels : Nat}
    {found : β} (ht : P t) (hfound : ds.ascend look levels t = some found) :
    ∃ id name args, P (.nominal id name args) ∧ look id name args = some found := by
  induction levels generalizing t with
  | zero => simp [Definitions.ascend] at hfound
  | succ levels ih =>
    cases t with
    | nominal id name args =>
      simp only [Definitions.ascend] at hfound
      split at hfound
      · rename_i found' hlook
        cases hfound
        exact ⟨id, name, args, ht, hlook⟩
      · split at hfound
        · rename_i base hbase
          exact ih (h.baseOf ht hbase) hfound
        · cases hfound
    | _ => simp [Definitions.ascend] at hfound

theorem ancestorArgs {ts : List Ty} (ht : P t) (hts : ds.ancestorArgs? name t = some (some ts)) :
    ∀ u ∈ ts, P u := by
  obtain ⟨id, name', args, hargs, hlook⟩ := h.ascend ht hts
  split at hlook
  · cases hlook
    exact fun u hu => h.component hargs hu
  · cases hlook

theorem nominalTable {levels : Nat} {table : MemberTable} (ht : P t) (htable : table.All P) :
    (ds.nominalTable levels t table).All P := by
  induction levels generalizing t table with
  | zero => simpa [Definitions.nominalTable] using htable
  | succ levels ih =>
    cases t with
    | nominal id name args =>
      have hlevel := addLevel_all htable fun m hm => h.membersOf ht hm
      simp only [Definitions.nominalTable]
      split
      · rename_i base hbase
        exact ih (h.baseOf ht hbase) hlevel
      · exact hlevel
    | _ => simpa [Definitions.nominalTable] using htable

theorem memberTable (ht : P t) : (ds.memberTable t).All P := by
  induction t with
  | nominal id name args =>
    unfold Definitions.memberTable
    exact h.nominalTable ht (by simp [MemberTable.All, OrderedMap.empty])
  | union members ih =>
    unfold Definitions.memberTable
    rw [memberTables_eq_map]
    refine intersect_all fun table htable => ?_
    obtain ⟨m, hm, rfl⟩ := List.mem_map.mp htable
    exact ih m hm (h.component ht hm)
  | _ => simp [Definitions.memberTable, MemberTable.All, OrderedMap.empty]

theorem findMembers (ht : P t) {m : Member} (hm : m ∈ ds.findMembers t name) : P m.ty := by
  unfold Definitions.findMembers at hm
  split at hm
  · obtain ⟨found, hfound, hm⟩ := mem_getD_nil hm
    obtain ⟨id, name', args, hargs, hlook⟩ := h.ascend ht hfound
    simp only [membersNamed?] at hlook
    split at hlook
    · cases hlook
    · cases hlook
      exact h.membersOf hargs (List.mem_of_mem_filter hm)
  · obtain ⟨found, hfound, hm⟩ := mem_getD_nil hm
    exact h.memberTable ht _ (OrderedMap.mem_of_find hfound) m hm
  · simp at hm

end Hereditary

end Definitions

/-! ## Inference -/

namespace Inference

variable {ds : Definitions} {i : Inference} {parameter argument : Ty}

/-- What every binding to a part of the argument preserves, the inference preserves. -/
theorem inferWithin_preserves {P : Inference → Prop} {A : Ty → Prop}
    (hbind : ∀ {i name t}, P i → A t → P (i.bind ds name t))
    (hfunc : ∀ {ps r}, A (.func ps r) → (∀ p ∈ ps, A p.2) ∧ A r)
    (hargs : ∀ {t name ts}, A t → ds.ancestorArgs? name t = some (some ts) → ∀ u ∈ ts, A u)
    {depth : Nat} (ha : A argument) (hi : P i) : P (inferWithin ds depth parameter argument i) := by
  induction depth generalizing parameter argument i with
  | zero => exact hi
  | succ depth ih =>
    have hfold : ∀ {α : Type} (xs : List α) (part part' : α → Ty),
        (∀ x ∈ xs, A (part' x)) →
        P (xs.foldl (fun i x => inferWithin ds depth (part x) (part' x) i) i) := by
      intro α xs part part' hxs
      exact List.foldlRecOn _ _ hi fun j hj x hx => ih (hxs x hx) hj
    unfold inferWithin
    split
    · exact hi
    · split
      · exact hbind hi ha
      · exact hi
    · obtain ⟨hps, hr⟩ := hfunc ha
      exact ih hr (hfold _ _ _ fun p hp => hps p.2 (List.of_mem_zip hp).2)
    · split
      · rename_i hancestor
        exact hfold _ _ _ fun p hp => hargs ha hancestor p.2 (List.of_mem_zip hp).2
      · exact hi
    · exact hi

@[simp] theorem free_infer (i : Inference) (parameter argument : Ty) :
    (i.infer ds parameter argument).free = i.free :=
  inferWithin_preserves (P := fun j => j.free = i.free) (A := fun _ => True) (fun h _ => h)
    (fun _ => ⟨fun _ _ => trivial, trivial⟩) (fun _ _ _ _ => trivial) trivial rfl

theorem get?_finish (i : Inference) (name : String) : i.finish.get? name =
    (i.bindings.get? name).or (if name ∈ i.free then some .unknown else none) := by
  unfold finish
  generalize i.bindings = s
  induction i.free generalizing s with
  | nil => simp
  | cons other rest ih =>
    rw [List.foldl_cons, ih]
    split
    · rename_i hcontains
      by_cases heq : name = other
      · subst heq
        obtain ⟨t, ht⟩ := Option.isSome_iff_exists.mp hcontains
        simp [ht]
      · simp [heq]
    · rename_i hcontains
      rw [OrderedMap.get?_insert]
      by_cases heq : other = name
      · subst heq
        have hnone : s.get? other = none := by simpa [OrderedMap.contains] using hcontains
        simp [hnone]
      · simp [heq, Ne.symm heq]

theorem finish_all {P : Ty → Prop} (hunknown : P .unknown) (hi : i.bindings.All P) :
    i.finish.All P := by
  intro name t ht
  rw [get?_finish] at ht
  cases hget : i.bindings.get? name with
  | some u =>
    rw [hget, Option.some_or] at ht
    cases ht
    exact hi name _ hget
  | none =>
    rw [hget, Option.none_or] at ht
    split at ht
    · cases ht
      exact hunknown
    · cases ht

end Inference

theorem Definitions.Hereditary.infer {ds : Definitions} {P : Ty → Prop} (h : ds.Hereditary P)
    {i : Inference} {parameter argument : Ty} (hi : i.bindings.All P) (ha : P argument) :
    (i.infer ds parameter argument).bindings.All P := by
  refine Inference.inferWithin_preserves (P := fun j => j.bindings.All P) (A := P) ?_ ?_
    (fun ht hts => h.ancestorArgs ht hts) ha hi
  · intro j name t hj ht
    refine hj.insert ?_
    split
    · rename_i earlier hearlier
      exact h.supertype (hj name earlier hearlier) ht
    · exact ht
  · intro ps r hfunc
    refine ⟨fun p hp => h.component hfunc ?_, h.component hfunc List.mem_cons_self⟩
    exact List.mem_cons_of_mem _ (List.mem_map_of_mem hp)

end ScriptTyping
