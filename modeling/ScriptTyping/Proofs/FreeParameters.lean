import ScriptTyping.Proofs.SubstitutionComposition

/-!
# The laws of substitution

Under a substitution each parameter becomes what stands for it, and so do its names: what is dropped
when unions are built anew is never, which has no parameters, or the same as something that is kept.
Together with composition this says which type two substitutions in a row give, and over which
parameters.
-/

namespace ScriptTyping

/-! ## One substitution made of two -/

namespace Substitution

/-- What the first puts in, under the second, and for the other names what the second puts in. -/
def andThen (s₁ s₂ : Substitution) : Substitution :=
  s₁.entries.foldr (fun e s => OrderedMap.insert s e.1 (e.2.instantiate s₂)) s₂

theorem get?_andThen (s₁ s₂ : Substitution) (name : String) :
    (s₁.andThen s₂).get? name =
      ((s₁.get? name).map (·.instantiate s₂)).or (s₂.get? name) := by
  unfold andThen OrderedMap.get?
  induction s₁.entries with
  | nil => rfl
  | cons e es ih =>
    rw [List.foldr_cons, OrderedMap.find]
    by_cases hname : e.1 = name
    · rw [if_pos hname, ← hname]
      exact OrderedMap.get?_insert_self _ e.1 _
    · rw [if_neg hname, ← ih]
      exact OrderedMap.get?_insert_of_ne _ hname _

end Substitution

namespace Ty

variable {t u : Ty} {name : String}

/-! ## Names in a union -/

theorem mem_paramNames_of_alike (h : Alike t u) :
    name ∈ t.paramNames ↔ name ∈ u.paramNames := by
  have hparts : ∀ t : Ty, name ∉ t.paramNames ↔
      ∀ x ∈ t.parts, ∀ p, x = param p → p.name ≠ name := by
    intro t
    rw [mem_paramNames_iff]
    grind
  rw [← not_iff_not, hparts, hparts]
  refine h.forall_parts_iff fun x y hxy => ?_
  cases hxy.shape <;> simp

theorem mem_paramNames_unionOf (ts : List Ty) :
    name ∈ (unionOf ts).paramNames ↔ ∃ t ∈ ts, name ∈ t.paramNames := by
  have hnone : name ∉ (unionOf ts).paramNames ↔ ∀ t ∈ ts, name ∉ t.paramNames :=
    unionOf_iff (P := fun t => name ∉ t.paramNames)
      (fun t u htu => not_congr (mem_paramNames_of_alike (alike_of_beq htu))) (by simp [paramNames])
      (fun ts => by simp [paramNames, mem_paramNamesList]) ts
  simpa using not_congr hnone

/-! ## Names under a substitution -/

/-- The names of what a parameter becomes. -/
def namesFor (s : Substitution) (param : String) : List String :=
  ((s.get? param).map paramNames).getD [param]

theorem mem_paramNames_replace_each {s : Substitution} {α : Type} {xs : List α} {part : α → Ty}
    (h : ∀ x ∈ xs, name ∈ ((part x).replace s).paramNames ↔
      ∃ n ∈ (part x).paramNames, name ∈ namesFor s n) :
    (∃ x ∈ xs, name ∈ ((part x).replace s).paramNames) ↔
      ∃ n, (∃ x ∈ xs, n ∈ (part x).paramNames) ∧ name ∈ namesFor s n := by
  constructor
  · rintro ⟨x, hx, hname⟩
    obtain ⟨n, hn, hname⟩ := (h x hx).mp hname
    exact ⟨n, ⟨x, hx, hn⟩, hname⟩
  · rintro ⟨n, ⟨x, hx, hn⟩, hname⟩
    exact ⟨x, hx, (h x hx).mpr ⟨n, hn, hname⟩⟩

theorem mem_paramNames_replace (s : Substitution) (t : Ty) :
    name ∈ (t.replace s).paramNames ↔ ∃ n ∈ t.paramNames, name ∈ namesFor s n := by
  induction t with
  | unknown | never => simp [replace, paramNames]
  | literal v b ih => simpa [replace, paramNames] using ih
  | union ts ih =>
    simp only [replace, replaceList_eq_map, mem_paramNames_unionOf, paramNames, mem_paramNamesList,
      List.mem_map, exists_exists_and_eq_and]
    exact mem_paramNames_replace_each ih
  | func ps r ihp ihr =>
    simp only [replace, replaceParams_eq_map, paramNames, List.mem_append, mem_paramNamesParams,
      List.mem_map, exists_exists_and_eq_and, ihr, mem_paramNames_replace_each ihp, or_and_right,
      exists_or]
  | nominal id other args ih =>
    cases args with
    | none => simp [replace, paramNames]
    | some ts =>
      simp only [replace, replaceList_eq_map, paramNames, mem_paramNamesList, List.mem_map,
        exists_exists_and_eq_and]
      exact mem_paramNames_replace_each (ih ts rfl)
  | param p => cases hget : s.get? p.name <;> simp [replace, paramNames, namesFor, hget]

theorem mem_paramNames_instantiate (s : Substitution) (t : Ty) :
    name ∈ (t.instantiate s).paramNames ↔ ∃ n ∈ t.paramNames, name ∈ namesFor s n := by
  unfold instantiate
  split
  · rename_i hempty
    simp [namesFor, (OrderedMap.isEmpty_iff s).mp hempty]
  · exact mem_paramNames_replace s t

theorem mem_freeParams_instantiate (s : Substitution) (t : Ty) :
    name ∈ (t.instantiate s).freeParams ↔ (name ∈ t.freeParams ∧ s.get? name = none) ∨
      ∃ n u, n ∈ t.freeParams ∧ s.get? n = some u ∧ name ∈ u.freeParams := by
  have hfor : ∀ n, name ∈ namesFor s n ↔
      (n = name ∧ s.get? n = none) ∨ ∃ u, s.get? n = some u ∧ name ∈ u.paramNames := by
    intro n
    cases hget : s.get? n <;> simp [namesFor, hget, eq_comm]
  simp only [freeParams, List.mem_eraseDups, mem_paramNames_instantiate, hfor, and_or_left,
    exists_or]
  refine or_congr ?_ (by simp)
  constructor
  · rintro ⟨n, hn, rfl, hnone⟩
    exact ⟨hn, hnone⟩
  · rintro ⟨hn, hnone⟩
    exact ⟨name, hn, rfl, hnone⟩

/-- Two substitutions in a row are the one made of them, equal as types and not only up to the order
or the repetitions of members. One that replaces no parameter of the type changes nothing. And the
parameters afterwards are those that were left and those of what was put in. -/
theorem substitutions_compose {t : Ty} {s₁ s₂ : Substitution} (ht : t.FlatUnions) (hs : s₂.All Flat)
    (hnan : s₂.All NaNFree) :
    (∀ s : Substitution,
      (∀ name, s.get? name = ((s₁.get? name).map (·.instantiate s₂)).or (s₂.get? name)) →
        (t.instantiate s₁).instantiate s₂ = t.instantiate s) ∧
    (∀ s : Substitution, (∀ name ∈ t.freeParams, s.get? name = none) → t.instantiate s = t) ∧
    ∀ name, name ∈ (t.instantiate s₁).freeParams ↔
      (name ∈ t.freeParams ∧ s₁.get? name = none) ∨
        ∃ n u, n ∈ t.freeParams ∧ s₁.get? n = some u ∧ name ∈ u.freeParams := by
  refine ⟨fun s h => instantiate_instantiate hs hnan h t, fun s h => ?_,
    fun name => mem_freeParams_instantiate s₁ t⟩
  exact instantiate_eq_self ht fun name hname => h name (List.mem_eraseDups.mpr hname)

def eitherOrText : Ty := union [param ⟨"T", .output⟩, param ⟨"U", .output⟩, string]

/-- The parameters `T` and `U` become `U` and never, and `U` becomes text: of the three members
two are left after the first substitution, and one after the second. -/
theorem either_collapses_to_text :
    let s₁ : Substitution :=
      .ofParams [⟨"T", .output⟩, ⟨"U", .output⟩] [param ⟨"U", .output⟩, never]
    let s₂ : Substitution := .ofParams [⟨"U", .output⟩, ⟨"V", .output⟩] [string, listOf number]
    (eitherOrText.instantiate s₁).instantiate s₂ = eitherOrText.instantiate (s₁.andThen s₂) ∧
      eitherOrText.instantiate (s₁.andThen s₂) = string ∧
      eitherOrText.instantiate (.ofParams [⟨"V", .output⟩] [number]) = eitherOrText ∧
      "U" ∈ (eitherOrText.instantiate s₁).freeParams := by
  intro s₁ s₂
  have hflat : s₂.All Flat := Substitution.all_ofParams _ (by decide)
  have hnan : s₂.All NaNFree := Substitution.all_ofParams _ (by decide)
  obtain ⟨hcompose, hself, hfree⟩ :=
    @substitutions_compose eitherOrText s₁ s₂ (by decide) hflat hnan
  exact ⟨hcompose _ (Substitution.get?_andThen s₁ s₂), by decide, hself _ (by decide),
    (hfree "U").mpr (Or.inr ⟨"T", param ⟨"U", .output⟩, by decide⟩)⟩

end Ty

end ScriptTyping
