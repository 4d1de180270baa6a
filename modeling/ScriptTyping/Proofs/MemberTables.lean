import ScriptTyping.Proofs.HereditaryTypes

/-!
# The two member lookups

A lookup by name stops at the first level that declares it. The table collects every level and
skips what an earlier level has. Both read the same list of definitions.
-/

namespace ScriptTyping.Definitions

variable {ds : Definitions} {t : Ty} {name : String} {levels : Nat} {table : MemberTable}

/-! ## One level -/

theorem get?_foldl_append (ms : List Member) (table : MemberTable) (name : String) :
    (ms.foldl (fun t m => t.insert m.name ((t.get? m.name).getD [] ++ [m])) table).get? name =
      match ms.filter fun m => m.name == name with
      | [] => table.get? name
      | found => some ((table.get? name).getD [] ++ found) := by
  induction ms generalizing table with
  | nil => rfl
  | cons m ms ih =>
    rw [List.foldl_cons, ih, OrderedMap.get?_insert]
    by_cases hm : m.name = name
    · rw [List.filter_cons_of_pos (by simpa using hm), if_pos hm, hm]
      cases ms.filter fun m => m.name == name <;> simp
    · rw [List.filter_cons_of_neg (by simpa using hm), if_neg hm]

theorem get?_addLevel (table : MemberTable) (id : DefId) (args : Option (List Ty))
    (name : String) : (addLevel table (ds.membersOf id args)).get? name =
      (table.get? name).or (ds.membersNamed? name id args) := by
  rw [addLevel, get?_foldl_append, List.filter_filter]
  cases hget : table.get? name with
  | some defs =>
    have hnone : ((ds.membersOf id args).filter fun m =>
        m.name == name && !table.contains m.name) = [] := by
      simp only [List.filter_eq_nil_iff, Bool.and_eq_true, beq_iff_eq, Bool.not_eq_true', not_and]
      rintro m - rfl
      simp [OrderedMap.contains, hget]
    rw [hnone, Option.some_or]
  | none =>
    have hall : ((ds.membersOf id args).filter fun m => m.name == name && !table.contains m.name) =
        (ds.membersOf id args).filter fun m => m.name == name := by
      refine List.filter_congr fun m _ => ?_
      by_cases hm : m.name = name
      · simp [OrderedMap.contains, hm, hget]
      · simp [hm]
    rw [hall, membersNamed?, Option.none_or]
    cases (ds.membersOf id args).filter fun m => m.name == name <;> rfl

theorem isSome_membersNamed? {id : DefId} {args : Option (List Ty)} :
    (ds.membersNamed? name id args).isSome = true ↔
    ∃ d, ds.get? id = some d ∧ ∃ m ∈ d.members, m.name = name := by
  have hfilter : (ds.membersNamed? name id args).isSome = true ↔
      ∃ m ∈ ds.membersOf id args, m.name = name := by
    unfold membersNamed?
    cases hfound : (ds.membersOf id args).filter fun m => m.name == name with
    | nil => simpa using hfound
    | cons m ms =>
      have hm : m ∈ (ds.membersOf id args).filter fun m => m.name == name := by simp [hfound]
      simpa using ⟨m, by simpa using hm⟩
  rw [hfilter, membersOf]
  cases ds.get? id <;> simp [Member.instantiate]

/-! ## All levels -/

theorem get?_nominalTable : (ds.nominalTable levels t table).get? name =
    (table.get? name).or
      (ds.ascend (fun id _ args => ds.membersNamed? name id args) levels t) := by
  induction levels generalizing t table with
  | zero => simp [nominalTable, ascend]
  | succ levels ih =>
    cases t with
    | nominal id n args =>
      simp only [nominalTable, ascend]
      cases ds.baseOf id args with
      | none =>
        rw [get?_addLevel]
        cases ds.membersNamed? name id args <;> rfl
      | some base =>
        simp only [ih, get?_addLevel, Option.or_assoc]
        cases ds.membersNamed? name id args <;> simp
    | _ => simp [nominalTable, ascend]

theorem findMembers_eq_getD : ds.findMembers t name = ((ds.memberTable t).get? name).getD [] := by
  cases t with
  | nominal id n args =>
    rw [findMembers, memberTable, get?_nominalTable]
    rfl
  | union members => rfl
  | _ => rfl

/-! ## What a table holds -/

theorem ne_nil_of_membersNamed? {id : DefId} {args : Option (List Ty)} {found : List Member}
    (h : ds.membersNamed? name id args = some found) : found ≠ [] := by
  rintro rfl
  unfold membersNamed? at h
  split at h
  · cases h
  · rename_i hne
    exact hne (Option.some.inj h)

theorem hereditary_true : ds.Hereditary fun _ => True :=
  ⟨fun _ _ => trivial, fun _ _ => trivial, fun _ _ => trivial, fun _ _ => trivial,
    fun _ _ => trivial⟩

theorem mem_of_mem_intersect {tables : List MemberTable} {e : String × List Member}
    (h : e ∈ (ds.intersect tables).entries) :
    ∃ first ∈ tables.head?, e ∈ first.entries ∧ e.2.length = 1 := by
  cases tables with
  | nil => simp [intersect, OrderedMap.empty] at h
  | cons first rest =>
    refine ⟨first, rfl, ?_⟩
    rw [intersect] at h
    refine List.foldlRecOn (motive := fun table : MemberTable =>
      e ∈ table.entries → e ∈ first.entries ∧ e.2.length = 1) _ _ ?_ ?_ h
    · intro he
      simpa using he
    · intro table htable other _ he
      exact htable (List.mem_of_mem_filter he)

theorem length_of_get?_union {members : List Ty} {defs : List Member}
    (h : (ds.memberTable (.union members)).get? name = some defs) : defs.length = 1 := by
  rw [memberTable] at h
  obtain ⟨-, -, -, hlength⟩ := mem_of_mem_intersect (OrderedMap.mem_of_find h)
  exact hlength

theorem get?_memberTable_ne_nil : (ds.memberTable t).get? name ≠ some [] := by
  intro h
  cases t with
  | nominal id n args =>
    rw [memberTable, get?_nominalTable] at h
    obtain ⟨_, _, _, -, hfound⟩ := hereditary_true.ascend trivial h
    exact ne_nil_of_membersNamed? hfound rfl
  | union members => simpa using length_of_get?_union h
  | _ => cases h

/-- A lookup by name reads the table of all members. A union has a name at most once. -/
theorem findMembers_eq_memberTable (ds : Definitions) (t : Ty) (name : String) :
    ds.findMembers t name = ((ds.memberTable t).get? name).getD [] ∧
    (ds.findMembers t name = [] ↔ (ds.memberTable t).contains name = false) ∧
    ∀ members, (ds.findMembers (.union members) name).length ≤ 1 := by
  refine ⟨findMembers_eq_getD, ?_, fun members => ?_⟩
  · rw [findMembers_eq_getD, OrderedMap.contains]
    cases hget : (ds.memberTable t).get? name with
    | none => simp
    | some defs =>
      have hne : defs ≠ [] := fun hnil => get?_memberTable_ne_nil (hnil ▸ hget)
      simpa using hne
  · rw [findMembers_eq_getD]
    cases hget : (ds.memberTable (.union members)).get? name with
    | none => simp
    | some defs => simp [length_of_get?_union hget]

end ScriptTyping.Definitions
