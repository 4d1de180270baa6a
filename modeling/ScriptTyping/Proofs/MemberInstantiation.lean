import ScriptTyping.Proofs.SubstitutionComposition

/-!
# Members of a bound type

A method of a bound type is instantiated in two stages: at the type's arguments when it is looked up,
and at its own parameters when it is called. The second stage goes into the arguments that the first
has put in. So an argument that mentions a parameter by the name of one of the method's own is captured;
if no argument does, the two stages are one substitution.
-/

namespace ScriptTyping

namespace Substitution

variable {ps qs : List TypeParam} {as os : List Ty} {name : String}

theorem get?_without (s : Substitution) (shadowed : List TypeParam) (name : String) :
    (s.without shadowed).get? name =
      if name ∈ shadowed.map (·.name) then none else s.get? name := by
  unfold without
  induction shadowed generalizing s with
  | nil => rfl
  | cons p shadowed ih =>
    rw [List.foldl_cons, ih, OrderedMap.get?_erase]
    by_cases h : p.name = name
    · simp [h]
    · simp [h, Ne.symm h]

theorem mem_names_of_get? {t : Ty} (h : (ofParams ps as).get? name = some t) :
    name ∈ ps.map (·.name) :=
  (List.of_mem_zip (OrderedMap.mem_of_get?_ofList h)).1

theorem get?_ofParams_eq_none (h : name ∉ ps.map (·.name)) :
    (ofParams ps as).get? name = none := by
  rw [Option.eq_none_iff_forall_ne_some]
  exact fun t ht => h (mem_names_of_get? ht)

theorem get?_ofParams_append (f : Ty → Ty) (hlen : ps.length = as.length)
    (hdisjoint : ∀ p ∈ ps, ∀ q ∈ qs, p.name ≠ q.name) (name : String) :
    (ofParams (ps ++ qs) (as.map f ++ os)).get? name =
      ((((ofParams ps as).without qs).get? name).map f).or ((ofParams qs os).get? name) := by
  have happend : (ofParams (ps ++ qs) (as.map f ++ os)).get? name =
      ((ofParams qs os).get? name).or (((ofParams ps as).get? name).map f) := by
    rw [ofParams, List.map_append, List.zip_append (by simpa using hlen), List.zip_map_right,
      OrderedMap.get?_ofList_append]
    exact congrArg _ (OrderedMap.get?_ofList_map f _ name)
  rw [happend, get?_without]
  -- The later entry wins on the left and the definition's on the right, but no name is in both.
  split
  · rename_i hown
    have hnone : (ofParams ps as).get? name = none := by
      refine get?_ofParams_eq_none fun hname => ?_
      obtain ⟨p, hp, rfl⟩ := List.mem_map.mp hname
      obtain ⟨q, hq, hpq⟩ := List.mem_map.mp hown
      exact hdisjoint p hp q hq hpq.symm
    simp [hnone]
  · rename_i hother
    simp [get?_ofParams_eq_none hother]

end Substitution

namespace Definitions

variable {ds : Definitions} {id : DefId} {d : Definition} {m m' : Member} {args os : List Ty}

theorem eq_instantiate_of_mem_zip (hd : ds.get? id = some d)
    (hm : (m, m') ∈ d.members.zip (ds.membersOf id (some args))) :
    m' = m.instantiate (.ofParams d.params args) := by
  have hmembers : ds.membersOf id (some args) =
      d.members.map fun m => m.instantiate (.ofParams d.params args) := by
    simp [membersOf, argSubstitution, hd]
  have hzip := List.zip_map' (f := fun m => m)
    (g := fun m => m.instantiate (.ofParams d.params args)) (l := d.members)
  rw [List.map_id'] at hzip
  rw [hmembers, hzip] at hm
  obtain ⟨k, -, hk⟩ := List.mem_map.mp hm
  obtain ⟨rfl, rfl⟩ := Prod.mk.inj hk
  rfl

/-- A member's type at the type's arguments and then at types for the member's own parameters. The
arguments are instantiated along; they stay as they are if they mention none of those parameters. -/
theorem member_instantiated_in_two_stages (hd : ds.get? id = some d)
    (hm : (m, m') ∈ d.members.zip (ds.membersOf id (some args)))
    (hargs : args.length = d.params.length)
    (hdisjoint : ∀ p ∈ d.params, ∀ q ∈ m.params, p.name ≠ q.name)
    (hflat : ∀ o ∈ os, o.Flat) (hnan : ∀ o ∈ os, o.NaNFree) :
    m'.ty.instantiate (.ofParams m.params os) =
        m.ty.instantiate (.ofParams (d.params ++ m.params)
          (args.map (·.instantiate (.ofParams m.params os)) ++ os)) ∧
      ((∀ a ∈ args, a.FlatUnions ∧ ∀ q ∈ m.params, q.name ∉ a.freeParams) →
        m'.ty.instantiate (.ofParams m.params os) =
          m.ty.instantiate (.ofParams (d.params ++ m.params) (args ++ os))) := by
  have htwice : m'.ty.instantiate (.ofParams m.params os) =
      m.ty.instantiate (.ofParams (d.params ++ m.params)
        (args.map (·.instantiate (.ofParams m.params os)) ++ os)) := by
    rw [eq_instantiate_of_mem_zip hd hm]
    exact Ty.instantiate_instantiate (Substitution.all_ofParams _ hflat)
      (Substitution.all_ofParams _ hnan)
      (Substitution.get?_ofParams_append _ hargs.symm hdisjoint) m.ty
  refine ⟨htwice, fun hfree => ?_⟩
  have hself : args.map (·.instantiate (.ofParams m.params os)) = args := by
    refine (List.map_congr_left fun a ha => ?_).trans (List.map_id' args)
    obtain ⟨hunions, hnames⟩ := hfree a ha
    refine Ty.instantiate_eq_self hunions fun name hname => ?_
    rw [Option.eq_none_iff_forall_ne_some]
    intro t ht
    obtain ⟨q, hq, rfl⟩ := List.mem_map.mp (Substitution.mem_names_of_get? ht)
    exact hnames q hq (List.mem_eraseDups.mpr hname)
  rw [htwice, hself]

/-! ## Mapping over a list -/

/-- The type of `map` on a list of `element`. -/
def mapType (element result : Ty) : Ty :=
  .func [("transform", .func [("item", element)] result)] (Ty.listOf result)

/-- `map` on a list of `element`. -/
def mapOf (element : Ty) : Member :=
  ⟨"map", mapType element (.param ⟨"U", .invariant⟩), true, [⟨"U", .invariant⟩], some "List"⟩

/-- The elements mention a parameter, but not the one of `map`. -/
theorem map_instantiated_in_two_stages :
    let element : Ty := .union [Ty.null, .param ⟨"V", .output⟩]
    (mapOf element).ty.instantiate (.ofParams [⟨"U", .invariant⟩] [Ty.string]) =
      (mapOf (.param ⟨"T", .output⟩)).ty.instantiate
        (.ofParams [⟨"T", .output⟩, ⟨"U", .invariant⟩] [element, Ty.string]) :=
  let element : Ty := .union [Ty.null, .param ⟨"V", .output⟩]
  (@member_instantiated_in_two_stages builtin 4 _ (mapOf (.param ⟨"T", .output⟩)) (mapOf element)
    [element] [Ty.string] rfl (by decide) rfl (by decide) (by decide) (by decide)).2 (by decide)

/-- The items of a `List<U>` become what `map` gives for each of them. -/
theorem argument_can_be_captured : ¬ ∀ (ds : Definitions) (id : DefId) (d : Definition)
    (m m' : Member) (args os : List Ty), ds.WellFormed → ds.get? id = some d → d.isGeneric = true →
    (∀ k ∈ d.members, k.ty.NaNFree) → args.length = d.params.length →
    (m, m') ∈ d.members.zip (ds.membersOf id (some args)) → os.length = m.params.length →
    (∀ p ∈ d.params, ∀ q ∈ m.params, p.name ≠ q.name) →
    (∀ t ∈ args ++ os, t.WellFormed ds ∧ t.NaNFree) →
    m'.ty.instantiate (.ofParams m.params os) =
      m.ty.instantiate (.ofParams (d.params ++ m.params) (args ++ os)) := by
  intro hall
  have hsame := hall builtin 4 ⟨"List", none, _, [⟨"T", .output⟩]⟩ (mapOf (.param ⟨"T", .output⟩))
    (mapOf (.param ⟨"U", .invariant⟩)) [.param ⟨"U", .invariant⟩] [Ty.string] (by decide) rfl rfl
    (by decide) rfl (by decide) rfl (by decide) (by decide)
  revert hsame
  decide

end Definitions

end ScriptTyping
