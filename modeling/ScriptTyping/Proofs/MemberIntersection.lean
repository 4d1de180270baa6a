import ScriptTyping.Proofs.MemberTables
import ScriptTyping.Proofs.Transitivity

/-!
# Member tables intersected

The fold compares every table with the first one. Agreement is symmetric and transitive, so the
names that are left are those on which any two tables agree, in whatever order the tables come.
-/

namespace ScriptTyping.Definitions

variable {ds : Definitions} {name : String} {table other s t u : MemberTable}
  {tables rest tables' : List MemberTable} {a b c : Member}

/-! ## Agreement -/

/-- Both are constant or neither is, and each type is assignable to the other. -/
structure Agree (ds : Definitions) (a b : Member) : Prop where
  isConst : a.isConst = b.isConst
  forth : ds.isAssignable a.ty b.ty = true
  back : ds.isAssignable b.ty a.ty = true

theorem agree_iff : ds.agree a b = true ↔ ds.Agree a b := by
  rw [agree, areEquivalent, Bool.and_eq_true, Bool.and_eq_true, beq_iff_eq]
  exact ⟨fun ⟨hconst, hforth, hback⟩ => ⟨hconst, hforth, hback⟩,
    fun h => ⟨h.isConst, h.forth, h.back⟩⟩

theorem Agree.symm (h : ds.Agree a b) : ds.Agree b a :=
  ⟨h.isConst.symm, h.back, h.forth⟩

/-- Both tables define the name once, and the two definitions agree. -/
def AgreeOn (ds : Definitions) (name : String) (s t : MemberTable) : Prop :=
  ∃ a b, s.get? name = some [a] ∧ t.get? name = some [b] ∧ ds.Agree a b

theorem AgreeOn.symm (h : ds.AgreeOn name s t) : ds.AgreeOn name t s := by
  obtain ⟨a, b, ha, hb, hab⟩ := h
  exact ⟨b, a, hb, ha, hab.symm⟩

/-- Every table defines the name once, and any two of them agree on it. -/
def Shared (ds : Definitions) (name : String) (tables : List MemberTable) : Prop :=
  (∀ table ∈ tables, ∃ m, table.get? name = some [m]) ∧ tables.Pairwise (ds.AgreeOn name)

/-! ## Names that are left -/

theorem get?_retain (hkeys : table.keys.Nodup) :
    (ds.retain table other).get? name = some [a] ↔
      table.get? name = some [a] ∧ ∃ b, other.get? name = some [b] ∧ ds.Agree a b := by
  rw [retain, OrderedMap.get?, OrderedMap.find_filter hkeys, Option.filter_eq_some_iff]
  refine and_congr_right fun _ => ?_
  rcases hother : other.get? name with _ | (_ | ⟨b, _ | ⟨c, defs⟩⟩) <;>
    simp [hother, agree_iff]

theorem get?_foldl_retain (hkeys : table.keys.Nodup) :
    (rest.foldl ds.retain table).get? name = some [a] ↔ table.get? name = some [a] ∧
      ∀ other ∈ rest, ∃ b, other.get? name = some [b] ∧ ds.Agree a b := by
  induction rest generalizing table with
  | nil => simp
  | cons next rest ih =>
    have hkeys' : (ds.retain table next).keys.Nodup :=
      hkeys.sublist (List.filter_sublist.map _)
    rw [List.foldl_cons, ih hkeys', get?_retain hkeys, List.forall_mem_cons, and_assoc]

theorem get?_intersect {first : MemberTable} (hkeys : first.keys.Nodup) :
    (ds.intersect (first :: rest)).get? name = some [a] ↔ first.get? name = some [a] ∧
      ∀ other ∈ rest, ds.AgreeOn name first other := by
  have hseed : (OrderedMap.mk (first.entries.filter fun e => e.2.length == 1)).get? name =
      some [a] ↔ first.get? name = some [a] := by
    rw [OrderedMap.get?, OrderedMap.find_filter hkeys, Option.filter_eq_some_iff]
    simp [OrderedMap.get?]
  rw [intersect, get?_foldl_retain (hkeys.sublist (List.filter_sublist.map _)), hseed]
  refine and_congr_right fun hfirst => forall₂_congr fun other _ => ?_
  simp [AgreeOn, hfirst]

theorem exists_of_get?_intersect {defs : List Member}
    (h : (ds.intersect tables).get? name = some defs) : ∃ a, defs = [a] := by
  obtain ⟨-, -, -, hlength⟩ := mem_of_mem_intersect (OrderedMap.mem_of_find h)
  exact List.length_eq_one_iff.mp hlength

theorem contains_intersect_cons {first : MemberTable} (hkeys : first.keys.Nodup) :
    (ds.intersect (first :: rest)).contains name = true ↔
      (∃ a, first.get? name = some [a]) ∧ ∀ other ∈ rest, ds.AgreeOn name first other := by
  rw [OrderedMap.contains, Option.isSome_iff_exists]
  constructor
  · rintro ⟨defs, hdefs⟩
    obtain ⟨a, rfl⟩ := exists_of_get?_intersect hdefs
    obtain ⟨hfirst, hrest⟩ := (get?_intersect hkeys).mp hdefs
    exact ⟨⟨a, hfirst⟩, hrest⟩
  · rintro ⟨⟨a, hfirst⟩, hrest⟩
    exact ⟨[a], (get?_intersect hkeys).mpr ⟨hfirst, hrest⟩⟩

/-! ## Agreement is transitive -/

/-- The types of all members. -/
def memberTypes (tables : List MemberTable) : List Ty :=
  tables.flatMap fun table => table.entries.flatMap fun e => e.2.map (·.ty)

/-- Tables in which no name has two entries, of types that assignability relates without the limit
coming in between. -/
structure Comparable (ds : Definitions) (tables : List MemberTable) : Prop where
  keys : ∀ table ∈ tables, table.keys.Nodup
  height : ∀ t ∈ memberTypes tables, t.height ≤ 32
  named : ∀ t ∈ (memberTypes tables).flatMap Ty.parts, ds.carriesName t = true
  backed : ∀ s ∈ (memberTypes tables).flatMap Ty.parts,
    ∀ t ∈ (memberTypes tables).flatMap Ty.parts, backedAlike s t = true

theorem mem_memberTypes (ht : table ∈ tables) (ha : table.get? name = some [a]) :
    a.ty ∈ memberTypes tables :=
  List.mem_flatMap.mpr ⟨table, ht, List.mem_flatMap.mpr ⟨_, OrderedMap.mem_of_find ha, by simp⟩⟩

namespace Comparable

variable (hc : ds.Comparable tables)

include hc

theorem perm (hperm : tables.Perm tables') : ds.Comparable tables' := by
  have htypes : ∀ t, t ∈ memberTypes tables' ↔ t ∈ memberTypes tables :=
    fun _ => (hperm.flatMap_right _).mem_iff.symm
  have hparts : ∀ t, t ∈ (memberTypes tables').flatMap Ty.parts ↔
      t ∈ (memberTypes tables).flatMap Ty.parts := by
    simp [List.mem_flatMap, htypes]
  constructor
  · exact fun table htable => hc.keys table (hperm.mem_iff.mpr htable)
  · exact fun t ht => hc.height t ((htypes t).mp ht)
  · exact fun t ht => hc.named t ((hparts t).mp ht)
  · exact fun s hs t ht => hc.backed s ((hparts s).mp hs) t ((hparts t).mp ht)

theorem coherent : ds.Coherent (· ∈ (memberTypes tables).flatMap Ty.parts) where
  closed t ht u hu := by
    obtain ⟨root, hroot, ht⟩ := List.mem_flatMap.mp ht
    exact List.mem_flatMap.mpr ⟨root, hroot, Ty.component_mem_parts ht hu⟩
  named _ _ _ ht := by simpa [carriesName] using hc.named _ ht
  backed v w x y hs ht hvw := by simpa [backedAlike, hvw] using hc.backed _ hs _ ht

theorem agree_trans (h : ds.Plain) (ha : a.ty ∈ memberTypes tables)
    (hb : b.ty ∈ memberTypes tables) (hc' : c.ty ∈ memberTypes tables)
    (hab : ds.Agree a b) (hbc : ds.Agree b c) : ds.Agree a c := by
  have hlimit : maxRelationDepth = 64 := rfl
  have hpart : ∀ {t}, t ∈ memberTypes tables → t ∈ (memberTypes tables).flatMap Ty.parts :=
    fun ht => List.mem_flatMap.mpr ⟨_, ht, Ty.mem_parts_self _⟩
  have := hc.height _ ha
  have := hc.height _ hb
  have := hc.height _ hc'
  obtain ⟨hconst, hforth, hback⟩ := hab
  obtain ⟨hconst', hforth', hback'⟩ := hbc
  rw [h.isAssignable_eq (by omega)] at hforth hback hforth' hback'
  have htrans := fun {x y z} => h.relatesFully_trans hc.coherent (a := x) (b := y) (c := z)
  refine ⟨hconst.trans hconst', ?_, ?_⟩
  · rw [h.isAssignable_eq (by omega)]
    exact htrans (hpart ha) (hpart hb) (hpart hc') hforth hforth'
  · rw [h.isAssignable_eq (by omega)]
    exact htrans (hpart hc') (hpart hb) (hpart ha) hback' hback

theorem agreeOn_trans (h : ds.Plain) (hs : s ∈ tables) (ht : t ∈ tables) (hu : u ∈ tables)
    (hst : ds.AgreeOn name s t) (htu : ds.AgreeOn name t u) : ds.AgreeOn name s u := by
  obtain ⟨a, b, ha, hb, hab⟩ := hst
  obtain ⟨b', c, hb', hcu, hbc⟩ := htu
  obtain rfl : b = b' := by simpa [hb] using hb'
  exact ⟨a, c, ha, hcu, hc.agree_trans h (mem_memberTypes hs ha) (mem_memberTypes ht hb)
    (mem_memberTypes hu hcu) hab hbc⟩

/-! ## Any two tables -/

theorem contains_intersect (h : ds.Plain) (hne : tables ≠ []) :
    (ds.intersect tables).contains name = true ↔ ds.Shared name tables := by
  obtain ⟨first, rest, rfl⟩ := List.exists_cons_of_ne_nil hne
  rw [contains_intersect_cons (hc.keys first (by simp)), Shared, List.pairwise_cons,
    List.forall_mem_cons]
  constructor
  · rintro ⟨hfirst, hagree⟩
    refine ⟨⟨hfirst, fun table htable => ?_⟩, hagree, ?_⟩
    · obtain ⟨-, b, -, hb, -⟩ := hagree table htable
      exact ⟨b, hb⟩
    · refine List.pairwise_of_forall_mem_list fun s hs t ht => ?_
      exact hc.agreeOn_trans h (by simp [hs]) (by simp) (by simp [ht]) (hagree s hs).symm
        (hagree t ht)
  · rintro ⟨⟨hfirst, -⟩, hagree, -⟩
    exact ⟨hfirst, hagree⟩

/-- With two tables or more, each agrees with itself as well. -/
theorem agreeOn_of_shared (h : ds.Plain) (hlength : tables.length ≠ 1)
    (hshared : ds.Shared name tables) (hs : s ∈ tables) (ht : t ∈ tables) :
    ds.AgreeOn name s t := by
  obtain ⟨-, hpairwise⟩ := hshared
  match tables with
  | [] => cases hs
  | [_] => simp at hlength
  | first :: second :: rest =>
    obtain ⟨hagree, -⟩ := List.pairwise_cons.mp hpairwise
    have hself : ds.AgreeOn name first first :=
      hc.agreeOn_trans h (by simp) (by simp) (by simp) (hagree second (by simp))
        (hagree second (by simp)).symm
    have hfirst : ∀ {u}, u ∈ first :: second :: rest → ds.AgreeOn name first u := by
      intro u hu
      rcases List.mem_cons.mp hu with rfl | hu
      · exact hself
      · exact hagree u hu
    exact hc.agreeOn_trans h hs (by simp) ht (hfirst hs).symm (hfirst ht)

end Comparable

theorem Shared.perm (hperm : tables.Perm tables') (hshared : ds.Shared name tables) :
    ds.Shared name tables' :=
  ⟨fun table htable => hshared.1 table (hperm.mem_iff.mpr htable),
    (hperm.pairwise_iff AgreeOn.symm).mp hshared.2⟩

theorem exists_mem_of_get?_intersect {defs : List Member}
    (hkeys : ∀ table ∈ tables, table.keys.Nodup)
    (h : (ds.intersect tables).get? name = some defs) :
    ∃ table ∈ tables, ∃ a, defs = [a] ∧ table.get? name = some [a] := by
  obtain ⟨a, rfl⟩ := exists_of_get?_intersect h
  cases tables with
  | nil => cases h
  | cons first rest =>
    exact ⟨first, by simp, a, rfl, ((get?_intersect (hkeys first (by simp))).mp h).1⟩

/-- The order of the tables does not matter: the same names are left, and the definitions left
agree. Of one table alone the definition is the same. -/
theorem intersect_symmetric (h : ds.Plain) (hc : ds.Comparable tables) (hne : tables ≠ []) :
    (∀ name, (ds.intersect tables).contains name = true ↔ ds.Shared name tables) ∧
    ∀ tables', tables.Perm tables' → ∀ name,
      (ds.intersect tables').contains name = (ds.intersect tables).contains name ∧
      ∀ defs defs', (ds.intersect tables).get? name = some defs →
        (ds.intersect tables').get? name = some defs' →
        ∃ a b, defs = [a] ∧ defs' = [b] ∧
          (ds.Agree a b ∨ tables.length = 1 ∧ a = b) := by
  refine ⟨fun name => hc.contains_intersect h hne, fun tables' hperm name => ⟨?_, ?_⟩⟩
  · have hne' : tables' ≠ [] := fun hnil => hne (by simpa [hnil] using hperm)
    rw [Bool.eq_iff_iff, hc.contains_intersect h hne, (hc.perm hperm).contains_intersect h hne']
    exact ⟨Shared.perm hperm.symm, Shared.perm hperm⟩
  · intro defs defs' hdefs hdefs'
    obtain ⟨s, hs, a, rfl, ha⟩ := exists_mem_of_get?_intersect hc.keys hdefs
    obtain ⟨t, ht, b, rfl, hb⟩ := exists_mem_of_get?_intersect (hc.perm hperm).keys hdefs'
    refine ⟨a, b, rfl, rfl, ?_⟩
    by_cases hlength : tables.length = 1
    · obtain ⟨table, rfl⟩ := List.length_eq_one_iff.mp hlength
      obtain rfl := List.perm_singleton.mp hperm.symm
      simp_all
    · have hshared : ds.Shared name tables :=
        (hc.contains_intersect h hne).mp (by simp [OrderedMap.contains, hdefs])
      obtain ⟨a', b', ha', hb', hab⟩ :=
        hc.agreeOn_of_shared h hlength hshared hs (hperm.mem_iff.mpr ht)
      obtain rfl : a = a' := by simpa [ha] using ha'
      obtain rfl : b = b' := by simpa [hb] using hb'
      exact Or.inl hab

/-- A tag of the type, and a name. -/
def tagged (t : Ty) : MemberTable :=
  ⟨[("tag", [.property "tag" t]), ("name", [.property "name" Ty.string])]⟩

/-- The tag's alternatives come in another order. -/
theorem tag_left_in_either_order :
    kennel.Shared "tag" [tagged (.union [Ty.string, Ty.number]),
      tagged (.union [Ty.number, Ty.string]), tagged (.union [Ty.number, Ty.string])] ∧
    (kennel.intersect [tagged (.union [Ty.number, Ty.string]),
      tagged (.union [Ty.string, Ty.number]),
      tagged (.union [Ty.number, Ty.string])]).contains "tag" = true := by
  have h := @intersect_symmetric kennel [tagged (.union [Ty.string, Ty.number]),
      tagged (.union [Ty.number, Ty.string]), tagged (.union [Ty.number, Ty.string])]
    ⟨by decide, by decide, by decide⟩ ⟨by decide, by decide, by decide, by decide⟩ (by decide)
  have hleft := (h.1 "tag").mp (by decide)
  exact ⟨hleft, (h.2 _ (.swap _ _ _) "tag").1.trans (by decide)⟩

end ScriptTyping.Definitions
