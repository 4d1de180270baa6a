import ScriptTyping.Proofs.FlatUnions
import ScriptTyping.Proofs.KnownTypes

/-!
# One substitution after another

Replacing parameters builds every union anew: members may become unions, never, or the same as others.
Still two substitutions in a row do what their composition does at once, if the types that the second
one puts in are flat and have no NaN literals.
-/

namespace ScriptTyping

namespace Ty

variable {t u k : Ty} {s s' : Substitution} {ts : List Ty}

/-! ## What a substitution keeps -/

theorem NaNFree.replace (h : t.NaNFree) (hs : s.All NaNFree) : (t.replace s).NaNFree := by
  refine forall_parts_replace h hs (fun _ => rfl) (fun _ => forall_parts_unionOf rfl fun _ => rfl) ?_
  intro u hu hparam hunion
  cases u with
  | param p => exact absurd rfl (hparam p)
  | union ts => exact absurd rfl (hunion ts)
  | nominal id name args => cases args <;> rfl
  | _ => exact hu

theorem flat_replace (hs : s.All Flat) (t : Ty) : (t.replace s).Flat := by
  induction t with
  | union ts ih =>
    rw [replace, replaceList_eq_map]
    exact flat_unionOf (List.forall_mem_map.mpr fun t ht => Flat.shallow (ih t ht))
  | param p =>
    rw [replace]
    cases hget : s.get? p.name with
    | none => trivial
    | some u => exact hs p.name u hget
  | nominal id name args => cases args <;> trivial
  | _ => trivial

theorem properAlternatives_replace (hs : s.All NaNFree) (hku : (k == u) = true) :
    ∀ w ∈ (u.replace s).properAlternatives, ∃ v ∈ (k.replace s).properAlternatives,
      (v == w) = true := by
  intro w hw
  obtain ⟨hw, hnever⟩ := List.mem_filter.mp hw
  obtain ⟨halike, hnan⟩ := beq_iff.mp hku
  have hsame : s.Alike s := fun name => by cases s.get? name <;> simp [Alike.refl]
  obtain ⟨v, hv, hwv⟩ := exists_of_forall₂ (alternatives_alike (replace_alike hsame halike.symm)) hw
  refine ⟨v, List.mem_filter.mpr ⟨hv, by rwa [← isNever_of_alike hwv]⟩, ?_⟩
  refine beq_iff.mpr ⟨hwv.symm, fun x hx => ?_⟩
  exact hnan.replace hs x (mem_parts_of_alternative hv hx)

/-! ## Building a union and replacing -/

theorem replace_ofAlternatives (hs : s.All Flat) (ts : List Ty) :
    (ofAlternatives ts).replace s = unionOf (ts.map (replace s)) := by
  match ts with
  | [] => rfl
  | [t] => exact (flat_replace hs t).unionOf_self.symm
  | t :: u :: ts =>
    change (union (t :: u :: ts)).replace s = _
    rw [replace, replaceList_eq_map]

theorem foldl_properAlternatives_replace (hs : s.All Flat) (t : Ty) (kept : List Ty) :
    (t.properAlternatives.flatMap fun a => (a.replace s).properAlternatives).foldl addDistinct kept =
      (t.replace s).properAlternatives.foldl addDistinct kept := by
  cases t with
  | union us =>
    have hnever : ∀ us : List Ty, ((us.filter fun u => !u.isNever).flatMap fun a =>
        (a.replace s).properAlternatives) = us.flatMap fun a => (a.replace s).properAlternatives := by
      intro us
      induction us with
      | nil => rfl
      | cons u us ih =>
        cases hu : u.isNever with
        | true =>
          cases u <;> cases hu
          exact ih
        | false => rw [List.filter_cons_of_pos (by simp [hu]), List.flatMap_cons, List.flatMap_cons, ih]
    have hflat : ∀ u ∈ us.map (replace s), u.Shallow :=
      List.forall_mem_map.mpr fun u _ => Flat.shallow (flat_replace hs u)
    rw [properAlternatives, alternatives, hnever, replace, replaceList_eq_map,
      properAlternatives_unionOf hflat, flatten_eq, foldl_addDistinct_distinct, List.flatMap_map]
  | never => rfl
  | _ => rw [properAlternatives_eq_self rfl rfl, List.flatMap_singleton]

theorem replace_unionOf (hs : s.All Flat) (hnan : s.All NaNFree) (ts : List Ty) :
    (unionOf ts).replace s = unionOf (ts.map (replace s)) := by
  -- On the left repetitions are dropped before and after, on the right only after.
  have hflatten : flatten ((flatten ts).map (replace s)) = flatten (ts.map (replace s)) := by
    rw [flatten_eq, flatten_eq ts, flatten_eq, List.flatMap_map, List.flatMap_map,
      distinct_flatMap_distinct fun k u hku => properAlternatives_replace hnan hku,
      List.flatMap_assoc]
    exact foldl_addDistinct_flatMap (fun t _ => foldl_properAlternatives_replace hs t) []
  rw [unionOf, replace_ofAlternatives hs, unionOf, hflatten, unionOf]

/-! ## One level at a time -/

/-- The type with `f` in place of the substitution on what stands directly inside. -/
def rebuild (s : Substitution) (f : Ty → Ty) : Ty → Ty
  | literal value backing => literal value (f backing)
  | union members => unionOf (members.map f)
  | func params result => func (params.map fun p => (p.1, f p.2)) (f result)
  | nominal id name (some args) => nominal id name (some (args.map f))
  | param p => (s.get? p.name).getD (param p)
  | t => t

theorem replace_eq_rebuild (s : Substitution) (t : Ty) : t.replace s = t.rebuild s (replace s) := by
  cases t with
  | nominal id name args => cases args <;> simp [replace, rebuild, replaceList_eq_map]
  | _ => simp [replace, rebuild, replaceList_eq_map, replaceParams_eq_map]

theorem rebuild_congr {f g : Ty → Ty} (h : ∀ c ∈ t.components, f c = g c) :
    t.rebuild s f = t.rebuild s g := by
  cases t with
  | literal v b => rw [rebuild, rebuild, h b (.head _)]
  | union ts => exact congrArg unionOf (List.map_congr_left h)
  | func ps r =>
    rw [rebuild, rebuild, h r (.head _)]
    refine congrArg (func · _) (List.map_congr_left fun p hp => ?_)
    rw [h p.2 (.tail _ (List.mem_map_of_mem hp))]
  | nominal id name args =>
    cases args with
    | none => rfl
    | some ts => exact congrArg (nominal id name <| some ·) (List.map_congr_left h)
  | _ => rfl

/-- A function that rebuilds every part of the type is the substitution there. -/
theorem eq_replace_of_rebuild {f : Ty → Ty} (h : ∀ u ∈ t.parts, f u = u.rebuild s f) :
    f t = t.replace s := by
  induction t using induct_components with
  | step t ih =>
    obtain ⟨htop, hparts⟩ := forall_parts_iff.mp h
    rw [htop, replace_eq_rebuild]
    exact rebuild_congr fun c hc => ih c hc (hparts c hc)

theorem mem_paramNames_iff {name : String} :
    name ∈ t.paramNames ↔ ∃ p, param p ∈ t.parts ∧ p.name = name := by
  have hcomponents : ∀ t : Ty, name ∈ t.paramNames ↔
      (∃ p, t = param p ∧ p.name = name) ∨ ∃ c ∈ t.components, name ∈ c.paramNames := by
    intro t
    cases t with
    | nominal id other args => cases args <;> simp [paramNames, components, mem_paramNamesList]
    | func ps r =>
      simp only [paramNames, List.mem_append, mem_paramNamesParams, components, reduceCtorEq,
        false_and, exists_false, false_or, List.mem_cons, List.mem_map, or_and_right, exists_or,
        exists_eq_left, exists_exists_and_eq_and]
      exact or_comm
    | _ => simp [paramNames, components, mem_paramNamesList, eq_comm]
  induction t using induct_components with
  | step t ih =>
    rw [hcomponents, parts_eq]
    simp only [List.mem_cons, List.mem_flatMap]
    constructor
    · rintro (⟨p, rfl, hp⟩ | ⟨c, hc, hname⟩)
      · exact ⟨p, Or.inl rfl, hp⟩
      · obtain ⟨p, hpc, hp⟩ := (ih c hc).mp hname
        exact ⟨p, Or.inr ⟨c, hc, hpc⟩, hp⟩
    · rintro ⟨p, rfl | ⟨c, hc, hpc⟩, hp⟩
      · exact Or.inl ⟨p, rfl, hp⟩
      · exact Or.inr ⟨c, hc, (ih c hc).mpr ⟨p, hpc, hp⟩⟩

/-! ## Composition -/

theorem replace_replace {s₁ s₂ : Substitution} (hs : s₂.All Flat) (hnan : s₂.All NaNFree)
    (h : ∀ name ∈ t.paramNames,
      s.get? name = ((s₁.get? name).map (replace s₂)).or (s₂.get? name)) :
    (t.replace s₁).replace s₂ = t.replace s := by
  refine eq_replace_of_rebuild (f := fun t => (t.replace s₁).replace s₂) fun u hu => ?_
  cases u with
  | union ts =>
    rw [replace, replaceList_eq_map, replace_unionOf hs hnan, List.map_map]
    rfl
  | param p =>
    rw [replace, rebuild, h p.name (mem_paramNames_iff.mpr ⟨p, hu, rfl⟩)]
    cases s₁.get? p.name with
    | none => rw [Option.getD_none, replace, Option.map_none, Option.none_or]
    | some u => rfl
  | nominal id name args => cases args <;> simp [replace, rebuild, replaceList_eq_map]
  | _ => simp [replace, rebuild, replaceParams_eq_map]

theorem replace_congr (h : ∀ name ∈ t.paramNames, s.get? name = s'.get? name) :
    t.replace s = t.replace s' := by
  refine eq_replace_of_rebuild fun u hu => ?_
  rw [replace_eq_rebuild]
  cases u with
  | param p => rw [rebuild, rebuild, h p.name (mem_paramNames_iff.mpr ⟨p, hu, rfl⟩)]
  | nominal id name args => cases args <;> rfl
  | _ => rfl

theorem replace_eq_self (hflat : t.FlatUnions) (h : ∀ name ∈ t.paramNames, s.get? name = none) :
    t.replace s = t := by
  refine (eq_replace_of_rebuild (f := id) fun u hu => ?_).symm
  cases u with
  | union ts => simp [rebuild, (hflat _ hu).unionOf_members]
  | param p => simp [rebuild, h p.name (mem_paramNames_iff.mpr ⟨p, hu, rfl⟩)]
  | nominal id name args => cases args <;> simp [rebuild]
  | _ => simp [rebuild]

/-! ## The shortcut for the empty substitution -/

theorem instantiate_congr (h : ∀ name, s.get? name = s'.get? name) :
    t.instantiate s = t.instantiate s' := by
  have hempty : s.isEmpty = s'.isEmpty := by
    rw [Bool.eq_iff_iff, OrderedMap.isEmpty_iff, OrderedMap.isEmpty_iff]
    simp only [h]
  unfold instantiate
  rw [hempty, replace_congr fun name _ => h name]

theorem instantiate_eq_replace (hflat : t.FlatUnions) (s : Substitution) :
    t.instantiate s = t.replace s := by
  unfold instantiate
  split
  · rename_i hempty
    refine (replace_eq_self hflat fun name _ => ?_).symm
    exact (OrderedMap.isEmpty_iff s).mp hempty name
  · rfl

theorem instantiate_eq_self (hflat : t.FlatUnions)
    (h : ∀ name ∈ t.paramNames, s.get? name = none) : t.instantiate s = t := by
  rw [instantiate_eq_replace hflat, replace_eq_self hflat h]

/-- Two substitutions in a row are one: what the first puts in is instantiated by the second, which
also replaces the parameters that the first has left. -/
theorem instantiate_instantiate {s₁ s₂ : Substitution} (hs : s₂.All Flat) (hnan : s₂.All NaNFree)
    (h : ∀ name, s.get? name = ((s₁.get? name).map (·.instantiate s₂)).or (s₂.get? name)) (t : Ty) :
    (t.instantiate s₁).instantiate s₂ = t.instantiate s := by
  -- The empty substitution does not even build unions anew, so `replace_replace` is not about it.
  by_cases hempty₂ : s₂.isEmpty = true
  · have hid : ∀ u : Ty, u.instantiate s₂ = u := fun u => if_pos hempty₂
    rw [hid]
    refine instantiate_congr fun name => ?_
    simp [h, hid, (OrderedMap.isEmpty_iff s₂).mp hempty₂ name]
  by_cases hempty₁ : s₁.isEmpty = true
  · rw [show t.instantiate s₁ = t from if_pos hempty₁]
    refine instantiate_congr fun name => ?_
    simp [h, (OrderedMap.isEmpty_iff s₁).mp hempty₁ name]
  · have hempty : ¬ s.isEmpty = true := by
      rw [OrderedMap.isEmpty_iff] at hempty₂ ⊢
      intro hnone
      refine hempty₂ fun name => ?_
      have hname := h name
      rw [hnone name] at hname
      exact (Option.or_eq_none_iff.mp hname.symm).2
    unfold instantiate at h ⊢
    simp only [if_neg hempty₂] at h
    rw [if_neg hempty₁, if_neg hempty₂, if_neg hempty]
    exact replace_replace hs hnan fun name _ => h name

end Ty

end ScriptTyping
