import Mathlib.Data.List.Nodup
import ScriptTyping.Proofs.MemberInstantiation
import ScriptTyping.Proofs.MemberTables
import ScriptTyping.Proofs.PlainDefinitions
import ScriptTyping.Exec.Generate

/-!
# Members of a bound type and of its definition

A member of a bound type may come from any level of a chain of generic bases, and every level replaces
its own parameters by arguments made from those of the level before. It is still the member that the
definition bound to its own parameters has, with these replaced by the arguments. Arguments with NaN
literals are an exception: such a literal is not the same as itself, so that two of them stay apart
in a union where the parameter they stand for was one alternative.
-/

namespace ScriptTyping

/-! ## Parameters replaced by arguments -/

namespace Substitution

variable {ps : List TypeParam} {as : List Ty} {name : String}

theorem get?_ofParams_cons (p : TypeParam) (ps : List TypeParam) (a : Ty) (as : List Ty)
    (name : String) : (ofParams (p :: ps) (a :: as)).get? name =
      ((ofParams ps as).get? name).or (if p.name = name then some a else none) :=
  OrderedMap.get?_ofList_cons _ _ name

theorem get?_ofParams_ne_none (hlen : ps.length ≤ as.length) (h : name ∈ ps.map (·.name)) :
    (ofParams ps as).get? name ≠ none := by
  induction ps generalizing as with
  | nil => cases h
  | cons p ps ih =>
    obtain ⟨a, as, rfl⟩ := List.exists_cons_of_length_pos (Nat.lt_of_lt_of_le (by simp) hlen)
    rw [get?_ofParams_cons, ne_eq, Option.or_eq_none_iff, not_and_or]
    rcases List.mem_cons.mp h with rfl | h
    · exact Or.inr (by simp)
    · exact Or.inl (ih (by simpa using hlen) h)

end Substitution

namespace Ty

variable {ps : List TypeParam} {as : List Ty} {s s₁ s₂ : Substitution} {t : Ty}

def isNominal : Ty → Bool
  | nominal .. => true
  | _ => false

theorem WellFormed.flatUnions {ds : Definitions} (h : t.WellFormed ds) : t.FlatUnions := by
  intro u hu
  cases u with
  | union ts => exact h _ hu
  | _ => trivial

theorem map_replace_param (hnodup : (ps.map (·.name)).Nodup) (hlen : as.length = ps.length) :
    (ps.map param).map (replace (.ofParams ps as)) = as := by
  induction ps generalizing as with
  | nil => rw [List.length_eq_zero_iff.mp hlen]; rfl
  | cons p ps ih =>
    obtain ⟨a, as, rfl⟩ := List.exists_cons_of_length_eq_add_one hlen
    obtain ⟨hfresh, hrest⟩ := List.nodup_cons.mp hnodup
    rw [List.map_cons, List.map_cons, replace, Substitution.get?_ofParams_cons,
      Substitution.get?_ofParams_eq_none hfresh]
    simp only [if_true, Option.none_or, Option.getD_some, List.cons.injEq, true_and]
    refine Eq.trans (List.map_congr_left fun u hu => ?_) (ih hrest (by simpa using hlen))
    obtain ⟨q, hq, rfl⟩ := List.mem_map.mp hu
    have hne : p.name ≠ q.name := by
      intro hname
      exact hfresh (List.mem_map.mpr ⟨q, hq, hname.symm⟩)
    rw [replace, replace, Substitution.get?_ofParams_cons, if_neg hne, Option.or_none]

theorem replace_nominal (id : DefId) (name : String) (args : Option (List Ty)) :
    (nominal id name args).replace s = nominal id name (args.map (·.map (replace s))) := by
  cases args <;> simp [replace, replaceList_eq_map]

theorem replace_instantiate (ht : t.FlatUnions) (hs : s.All Flat) (hnan : s.All NaNFree)
    (hlook : ∀ name, s₂.get? name = (s₁.get? name).map (replace s))
    (hleft : ∀ name ∈ t.paramNames, s₁.get? name = none → s.get? name = none) :
    (t.instantiate s₁).replace s = t.instantiate s₂ := by
  rw [instantiate_eq_replace ht, instantiate_eq_replace ht]
  refine replace_replace hs hnan fun name hname => ?_
  rw [hlook]
  cases hget : s₁.get? name with
  | none => rw [hleft name hname hget, Option.map_none, Option.none_or]
  | some u => rw [Option.map_some, Option.some_or]

end Ty

/-- The parameters that a definition and its methods declare. -/
def Definition.declaredParams (d : Definition) : List String :=
  d.params.map (·.name) ++ d.members.flatMap fun m => m.params.map (·.name)

namespace Definitions

variable {ds : Definitions} {s : Substitution} {id id' : DefId} {d d' : Definition}
  {name n n' : String} {args args' : Option (List Ty)} {as : List Ty} {t b : Ty} {m : Member}
  {levels more : Nat} {found : List Member}

theorem mem_of_get? (hd : ds.get? id = some d) : d ∈ ds.defs.toList :=
  Array.mem_toList_iff.mpr (Array.mem_of_getElem? hd)

/-! ## Scoped definitions -/

/-- A base mentions parameters of its definition, and a member these and its own. -/
def Scoped (ds : Definitions) : Prop :=
  ∀ d ∈ ds.defs.toList, (∀ b ∈ d.base, ∀ name ∈ b.paramNames, name ∈ d.params.map (·.name)) ∧
    ∀ m ∈ d.members, ∀ name ∈ m.ty.paramNames, name ∈ (d.params ++ m.params).map (·.name)

instance (ds : Definitions) : Decidable ds.Scoped :=
  inferInstanceAs (Decidable (∀ d ∈ ds.defs.toList, _))

/-- No two parameters have one name, be they of definitions or of methods. -/
def DistinctParams (ds : Definitions) : Prop :=
  (ds.defs.toList.flatMap Definition.declaredParams).Nodup

instance (ds : Definitions) : Decidable ds.DistinctParams :=
  inferInstanceAs (Decidable (List.Nodup _))

/-- Every base is a nominal type. -/
def NominalBases (ds : Definitions) : Prop :=
  ∀ d ∈ ds.defs.toList, ∀ b ∈ d.base, b.isNominal = true

instance (ds : Definitions) : Decidable ds.NominalBases :=
  inferInstanceAs (Decidable (∀ d ∈ ds.defs.toList, _))

theorem DistinctParams.nodup (h : ds.DistinctParams) (hd : ds.get? id = some d) :
    d.declaredParams.Nodup :=
  (List.nodup_flatMap.mp h).1 d (mem_of_get? hd)

theorem DistinctParams.disjoint (h : ds.DistinctParams) (hd : ds.get? id = some d)
    (hd' : ds.get? id' = some d') (hne : id ≠ id') :
    d.declaredParams.Disjoint d'.declaredParams := by
  have hpairs := List.pairwise_iff_getElem.mp (List.nodup_flatMap.mp h).2
  obtain ⟨hlt, rfl⟩ := Array.getElem?_eq_some_iff.mp hd
  obtain ⟨hlt', rfl⟩ := Array.getElem?_eq_some_iff.mp hd'
  rcases Nat.lt_or_gt_of_ne hne with hid | hid
  · exact hpairs id id' (by simpa using hlt) (by simpa using hlt') hid
  · exact List.disjoint_comm.mp (hpairs id' id (by simpa using hlt') (by simpa using hlt) hid)

/-! ## One level -/

/-- Of the parameters that the arguments of a level leave in its types, the substitution replaces
none. -/
structure Leaves (ds : Definitions) (s : Substitution) (id : DefId) (args : Option (List Ty)) :
    Prop where
  base : ∀ d, ds.get? id = some d → ∀ b ∈ d.base, ∀ name ∈ b.paramNames,
    (ds.argSubstitution id args).get? name = none → s.get? name = none
  member : ∀ d, ds.get? id = some d → ∀ m ∈ d.members, ∀ name ∈ m.ty.paramNames,
    ((ds.argSubstitution id args).without m.params).get? name = none → s.get? name = none

theorem get?_argSubstitution_map (f : Ty → Ty) (name : String) :
    (ds.argSubstitution id (args.map (·.map f))).get? name =
      ((ds.argSubstitution id args).get? name).map f := by
  unfold argSubstitution
  cases ds.get? id with
  | none => rfl
  | some d =>
    cases args with
    | none => rfl
    | some as =>
      change (Substitution.ofParams d.params (as.map f)).get? name = _
      rw [Substitution.ofParams, List.zip_map_right]
      exact OrderedMap.get?_ofList_map f _ name

section Level

variable (hwf : ds.WellFormed) (hs : s.All Ty.Flat) (hnan : s.All Ty.NaNFree)

include hwf hs hnan

theorem membersOf_replace (h : ds.Leaves s id args) :
    ds.membersOf id (args.map (·.map (Ty.replace s))) =
      (ds.membersOf id args).map fun m => { m with ty := m.ty.replace s } := by
  unfold membersOf
  cases hd : ds.get? id with
  | none => rfl
  | some d =>
    simp only [List.map_map]
    refine List.map_congr_left fun m hm => ?_
    have hty : m.ty.WellFormed ds := (hwf d (mem_of_get? hd)).2 m hm
    have hlook : ∀ name, ((ds.argSubstitution id (args.map (·.map (Ty.replace s)))).without
        m.params).get? name =
          (((ds.argSubstitution id args).without m.params).get? name).map (Ty.replace s) := by
      intro name
      rw [Substitution.get?_without, Substitution.get?_without, get?_argSubstitution_map]
      split <;> rfl
    exact congrArg (fun ty => { m with ty := ty })
      (Ty.replace_instantiate hty.flatUnions hs hnan hlook (h.member d hd m hm)).symm

theorem membersNamed?_replace (h : ds.Leaves s id args) :
    ds.membersNamed? name id (args.map (·.map (Ty.replace s))) =
      (ds.membersNamed? name id args).map
        (List.map fun m => { m with ty := m.ty.replace s }) := by
  rw [membersNamed?, membersNamed?, membersOf_replace hwf hs hnan h, List.filter_map]
  cases hfound : (ds.membersOf id args).filter fun m => m.name == name <;>
    simp [Function.comp_def, hfound]

theorem baseOf_replace (h : ds.Leaves s id args) :
    ds.baseOf id (args.map (·.map (Ty.replace s))) =
      (ds.baseOf id args).map (Ty.replace s) := by
  unfold baseOf
  cases hd : ds.get? id with
  | none => rfl
  | some d =>
    cases hbase : d.base with
    | none => simp [hbase]
    | some b =>
      have hb : b.WellFormed ds := (hwf d (mem_of_get? hd)).1 b hbase
      simp only [hbase, Option.map_some, Option.some.injEq]
      exact (Ty.replace_instantiate hb.flatUnions hs hnan (fun name => get?_argSubstitution_map _ name)
        (h.base d hd b hbase)).symm

end Level

theorem leaves_of_ne (hscoped : ds.Scoped) (hdistinct : ds.DistinctParams)
    (hd : ds.get? id = some d) (hne : id ≠ id') (args : Option (List Ty)) :
    ds.Leaves (.ofParams d.params as) id' args := by
  have hforeign : ∀ {d'}, ds.get? id' = some d' → ∀ {name}, name ∈ d'.declaredParams →
      (Substitution.ofParams d.params as).get? name = none := by
    intro d' hd' name hname
    refine Substitution.get?_ofParams_eq_none fun hown => ?_
    exact hdistinct.disjoint hd hd' hne (List.mem_append_left _ hown) hname
  constructor
  · intro d' hd' b hb name hname _
    exact hforeign hd' (List.mem_append_left _ ((hscoped d' (mem_of_get? hd')).1 b hb name hname))
  · intro d' hd' m hm name hname _
    have hmem := (hscoped d' (mem_of_get? hd')).2 m hm name hname
    rw [List.map_append, List.mem_append] at hmem
    refine hforeign hd' (List.mem_append.mpr (hmem.imp_right fun hmem => ?_))
    exact List.mem_flatMap.mpr ⟨m, hm, hmem⟩

theorem leaves_self (hscoped : ds.Scoped) (hdistinct : ds.DistinctParams)
    (hd : ds.get? id = some d) :
    ds.Leaves (.ofParams d.params as) id (some (d.params.map Ty.param)) := by
  have hown : ∀ {name}, name ∈ d.params.map (·.name) →
      (ds.argSubstitution id (some (d.params.map Ty.param))).get? name ≠ none := by
    intro name hname
    simp only [argSubstitution, hd]
    exact Substitution.get?_ofParams_ne_none (by simp) hname
  constructor
  · intro d' hd' b hb name hname hnone
    obtain rfl : d = d' := Option.some.inj (hd.symm.trans hd')
    exact absurd hnone (hown ((hscoped d (mem_of_get? hd)).1 b hb name hname))
  · intro d' hd' m hm name hname hnone
    obtain rfl : d = d' := Option.some.inj (hd.symm.trans hd')
    have hmem := (hscoped d (mem_of_get? hd)).2 m hm name hname
    rw [List.map_append, List.mem_append] at hmem
    rw [Substitution.get?_without] at hnone
    split at hnone
    · rename_i hmethod
      refine Substitution.get?_ofParams_eq_none fun hname => ?_
      exact (List.nodup_append.mp (hdistinct.nodup hd)).2.2 name hname name
        (List.mem_flatMap.mpr ⟨m, hm, hmethod⟩) rfl
    · rename_i hother
      exact absurd hnone (hown (hmem.resolve_right hother))

/-! ## The chain of bases -/

section Chain

variable {β : Type} {look : DefId → String → Option (List Ty) → Option β} {found : β}

theorem ascend_mono (h : ds.ascend look levels t = some found) (hle : levels ≤ more) :
    ds.ascend look more t = some found := by
  induction levels generalizing t more with
  | zero => simp [ascend] at h
  | succ levels ih =>
    obtain ⟨more, rfl⟩ : ∃ k, more = k + 1 := ⟨more - 1, by omega⟩
    cases t with
    | nominal id n args =>
      rw [ascend] at h ⊢
      cases hlook : look id n args with
      | some found' => simpa [hlook] using h
      | none =>
        cases hbase : ds.baseOf id args with
        | none => simp [hlook, hbase] at h
        | some base =>
          simp only [hlook, hbase] at h ⊢
          exact ih h (by omega)
    | _ => simp [ascend] at h

theorem baseOf_nominal (hbases : ds.NominalBases) (id : DefId) :
    (∀ args, ds.baseOf id args = none) ∨
      ∃ e n, ∀ args, ∃ as, ds.baseOf id args = some (.nominal e n as) := by
  unfold baseOf
  cases hd : ds.get? id with
  | none => simp
  | some d =>
    cases hbase : d.base with
    | none => simp [hbase]
    | some base =>
      have hnominal := hbases d (mem_of_get? hd) base hbase
      obtain ⟨e, n, as, rfl⟩ : ∃ e n as, base = .nominal e n as := by
        cases base <;> simp_all [Ty.isNominal]
      refine Or.inr ⟨e, n, fun args => ?_⟩
      simp only [hbase, Option.map_some, Option.some.injEq, Ty.instantiate]
      split
      · exact ⟨as, rfl⟩
      · cases as <;> exact ⟨_, rfl⟩

theorem isSome_ascend (hbases : ds.NominalBases)
    (hlook : ∀ id n n' args args', (look id n args).isSome = (look id n' args').isSome)
    (n n' : String) (args args' : Option (List Ty)) :
    (ds.ascend look levels (.nominal id n args)).isSome =
      (ds.ascend look levels (.nominal id n' args')).isSome := by
  induction levels generalizing id n n' args args' with
  | zero => rfl
  | succ levels ih =>
    have hsame := hlook id n n' args args'
    rw [ascend, ascend]
    cases hl : look id n args <;> cases hl' : look id n' args' <;> simp only [hl, hl'] at hsame
    · rcases baseOf_nominal hbases id with hnone | ⟨e, m, hbase⟩
      · simp [hnone]
      · obtain ⟨as, has⟩ := hbase args
        obtain ⟨as', has'⟩ := hbase args'
        simp only [has, has']
        exact ih m m as as'
    · cases hsame
    · cases hsame
    · rfl

end Chain

section Chain

variable (hwf : ds.WellFormed) (hs : s.All Ty.Flat) (hnan : s.All Ty.NaNFree)
  (hbases : ds.NominalBases)

include hwf hs hnan hbases

theorem ascend_replace (hleaves : ∀ id', id ≠ id' → ∀ args, ds.Leaves s id' args)
    (hnone : ∀ n args, ds.ascend (fun id _ args => ds.membersNamed? name id args) levels
      (.nominal id n args) = none) (id' : DefId) (n : String) (args : Option (List Ty)) :
    ds.ascend (fun id _ args => ds.membersNamed? name id args) levels
        (.nominal id' n (args.map (·.map (Ty.replace s)))) =
      (ds.ascend (fun id _ args => ds.membersNamed? name id args) levels (.nominal id' n args)).map
        (List.map fun m => { m with ty := m.ty.replace s }) := by
  induction levels generalizing id' n args with
  | zero => rfl
  | succ levels ih =>
    by_cases hid : id = id'
    · rw [← hid, hnone, hnone, Option.map_none]
    · have hleaves' := hleaves id' hid args
      have hnone' : ∀ n args, ds.ascend (fun id _ args => ds.membersNamed? name id args) levels
          (.nominal id n args) = none := by
        intro n args
        rw [Option.eq_none_iff_forall_ne_some]
        intro found hfound
        simpa [hnone n args] using ascend_mono hfound (Nat.le_succ levels)
      rw [ascend, ascend]
      simp only [membersNamed?_replace hwf hs hnan hleaves', baseOf_replace hwf hs hnan hleaves']
      cases ds.membersNamed? name id' args with
      | some found => rfl
      | none =>
        rcases baseOf_nominal hbases id' with hbase | ⟨e, n', hbase⟩
        · simp [hbase]
        · obtain ⟨as, has⟩ := hbase args
          simp only [has, Option.map_none, Option.map_some, Ty.replace_nominal]
          exact ih hnone' e n' as

/-- A name that the definition's own members lack, and that is not found above it either, is not
found where the chain comes back to the definition. -/
theorem ascend_bound (hscoped : ds.Scoped) (hdistinct : ds.DistinctParams)
    (hd : ds.get? id = some d) (hlen : as.length = d.params.length)
    (hs' : s = .ofParams d.params as) :
    ds.ascend (fun id _ args => ds.membersNamed? name id args) levels
        (.nominal id n (some as)) =
      (ds.ascend (fun id _ args => ds.membersNamed? name id args) levels
        (.nominal id n (some (d.params.map Ty.param)))).map
          (List.map fun m => { m with ty := m.ty.replace s }) := by
  induction levels with
  | zero => rfl
  | succ levels ih =>
    cases hearlier : ds.ascend (fun id _ args => ds.membersNamed? name id args) levels
        (.nominal id n (some (d.params.map Ty.param))) with
    | some found =>
      rw [hearlier] at ih
      rw [ascend_mono hearlier (Nat.le_succ levels), ascend_mono ih (Nat.le_succ levels)]
      rfl
    | none =>
      have hnone : ∀ n args, ds.ascend (fun id _ args => ds.membersNamed? name id args) levels
          (.nominal id n args) = none := by
        intro n' args
        rw [← Option.isNone_iff_eq_none, ← Option.not_isSome, isSome_ascend hbases _ n' n args,
          hearlier, Option.isSome_none, Bool.not_false]
        intro id n n' args args'
        rw [Bool.eq_iff_iff, isSome_membersNamed?, isSome_membersNamed?]
      have hself : ds.Leaves s id (some (d.params.map Ty.param)) :=
        hs' ▸ leaves_self hscoped hdistinct hd
      have hargs : some as = (some (d.params.map Ty.param)).map (·.map (Ty.replace s)) := by
        have hnodup := (List.nodup_append.mp (hdistinct.nodup hd)).1
        rw [Option.map_some, hs', Ty.map_replace_param hnodup hlen]
      rw [ascend, ascend]
      simp only [hargs, membersNamed?_replace hwf hs hnan hself, baseOf_replace hwf hs hnan hself]
      cases ds.membersNamed? name id (some (d.params.map Ty.param)) with
      | some found => rfl
      | none =>
        rcases baseOf_nominal hbases id with hbase | ⟨e, n', hbase⟩
        · simp [hbase]
        · obtain ⟨bs, hbs⟩ := hbase (some (d.params.map Ty.param))
          simp only [hbs, Option.map_none, Option.map_some, Ty.replace_nominal]
          exact ascend_replace hwf hs hnan hbases
            (fun id' hne args => hs' ▸ leaves_of_ne hscoped hdistinct hd hne args) hnone e n' bs

end Chain

/-! ## Lookup -/

theorem bind_unbound (hd : ds.get? id = some d) (h : ds.bind (ds.unbound id) as = .ok t) :
    d.isGeneric = true ∧ as.length = d.params.length ∧ t = .nominal id d.name (some as) := by
  obtain ⟨id', name', d', hunbound, hd', hgeneric, harity, rfl⟩ := bind_eq_ok h
  rw [unbound, hd, Option.map_some, Option.getD_some] at hunbound
  cases hunbound
  rw [hd] at hd'
  cases hd'
  exact ⟨hgeneric, harity.symm, rfl⟩

/-- A lookup at a bound type finds what a lookup at the definition finds, with the arguments for the
parameters; and a read of what it finds is converted to it from the declared type. -/
theorem findMembers_bound (hwf : ds.WellFormed) (hbases : ds.NominalBases) (hscoped : ds.Scoped)
    (hdistinct : ds.DistinctParams) (hd : ds.get? id = some d)
    (hbind : ds.bind (ds.unbound id) as = .ok t)
    (hargs : ∀ a ∈ as, a.WellFormed ds ∧ a.NaNFree) (name : String) :
    ds.findMembers t name = (ds.findMembers (ds.selfInstance id) name).map
        (fun m => { m with ty := m.ty.instantiate (.ofParams d.params as) }) ∧
      ∀ (site : Site) (object : Exec) (m : Member), object.site.ty = t → ds.findMembers t name = [m] →
        site.ty = m.ty → ∃ declared : Ty, declared.instantiate (.ofParams d.params as) = site.ty ∧
          Generate.readMember ds site object name m =
            if declared == site.ty then .memberRead site object m
            else .convert site (.memberRead ⟨declared, site.span⟩ object m) := by
  obtain ⟨hgeneric, hlen, rfl⟩ := bind_unbound hd hbind
  have hs : (Substitution.ofParams d.params as).All Ty.Flat :=
    Substitution.all_ofParams _ fun a ha => (hargs a ha).1.flatUnions _ (Ty.mem_parts_self a)
  have hnan : (Substitution.ofParams d.params as).All Ty.NaNFree :=
    Substitution.all_ofParams _ fun a ha => (hargs a ha).2
  have hnonempty : ¬ OrderedMap.isEmpty (Substitution.ofParams d.params as) = true := by
    obtain ⟨p, ps, hps⟩ : ∃ p ps, d.params = p :: ps := by
      refine List.exists_cons_of_ne_nil fun hnil => ?_
      simp [Definition.isGeneric, hnil] at hgeneric
    rw [OrderedMap.isEmpty_iff]
    exact fun hnone => Substitution.get?_ofParams_ne_none (Nat.le_of_eq hlen.symm) (by simp [hps])
      (hnone p.name)
  have hinstantiate : ∀ u : Ty, u.instantiate (.ofParams d.params as) =
      u.replace (.ofParams d.params as) := fun _ => if_neg hnonempty
  have hself : ds.selfInstance id = .nominal id d.name (some (d.params.map Ty.param)) := by
    simp [selfInstance, hd, hgeneric]
  have hfind : ds.findMembers (.nominal id d.name (some as)) name =
      (ds.findMembers (ds.selfInstance id) name).map
        (fun m => { m with ty := m.ty.instantiate (.ofParams d.params as) }) := by
    simp only [hinstantiate]
    rw [hself, findMembers, findMembers,
      ascend_bound hwf hs hnan hbases hscoped hdistinct hd hlen rfl]
    cases ds.ascend (fun id _ args => ds.membersNamed? name id args) (maxBaseLinks + 1)
      (.nominal id d.name (some (d.params.map Ty.param))) <;> rfl
  refine ⟨hfind, fun site object m hobject hm hty => ?_⟩
  rw [hfind] at hm
  obtain ⟨declared, hdeclared, rfl⟩ := List.map_eq_singleton_iff.mp hm
  refine ⟨declared.ty, hty.symm, ?_⟩
  simp only [Generate.readMember, Generate.declaredMemberType?, hobject, hdeclared]

/-! ## Twins -/

/-- A pair has a choice of two types. Twins are a pair of one type. -/
def pairs : Definitions :=
  (((builtin.reserve "Pair" [⟨"Y", .output⟩, ⟨"Z", .output⟩]).reserve "Twins" [⟨"W", .output⟩]).define 5
    none [.property "choice" (.union [.param ⟨"Y", .output⟩, .param ⟨"Z", .output⟩])]).define 6
    (some (.nominal 5 "Pair" (some [.param ⟨"W", .output⟩, .param ⟨"W", .output⟩]))) []

/-- The choice comes from the base, and from two alternatives that become one. -/
theorem choice_of_twins :
    pairs.findMembers (.nominal 6 "Twins" (some [.union [Ty.string, Ty.null]])) "choice" =
      (pairs.findMembers (pairs.selfInstance 6) "choice").map
        fun m => { m with
          ty := m.ty.instantiate (.ofParams [⟨"W", .output⟩] [.union [Ty.string, Ty.null]]) } :=
  (@findMembers_bound pairs 6 _ [.union [Ty.string, Ty.null]] _ (by decide) (by decide) (by decide)
    (by decide) rfl rfl (by decide) "choice").1

/-- Of the choice of twins a NaN literal gives itself, and two such literals do not become one. -/
theorem choice_of_nan_twins_differs : ¬ ∀ (ds : Definitions) (id : DefId) (d : Definition)
    (as : List Ty) (t : Ty) (name : String), ds.WellFormed →
    (∀ e ∈ ds.defs.toList, (∀ b ∈ e.base, b.NaNFree) ∧ ∀ m ∈ e.members, m.ty.NaNFree) →
    ds.NominalBases → ds.Scoped → ds.DistinctParams → ds.get? id = some d →
    ds.bind (ds.unbound id) as = .ok t → (∀ a ∈ as, a.WellFormed ds) →
    (∀ a ∈ as, ∀ p ∈ a.freeParams, ∀ e ∈ ds.defs.toList, ∀ m ∈ e.members,
      p ∉ m.params.map (·.name)) →
    ds.findMembers t name = (ds.findMembers (ds.selfInstance id) name).map
      fun m => { m with ty := m.ty.instantiate (.ofParams d.params as) } := by
  intro hall
  have hsame := hall pairs 6 _ [Ty.ofLiteral (.number ⟨0x7FF8000000000000⟩)] _ "choice" (by decide)
    (by decide) (by decide) (by decide) (by decide) rfl rfl (by decide) (by decide)
  revert hsame
  decide

end Definitions

end ScriptTyping
