import ScriptTyping.Proofs.InferredParts
import ScriptTyping.Proofs.KnownTypes
import ScriptTyping.Proofs.Reflexivity

/-!
# Inference undoes instantiation

A type is walked side by side with what it becomes under a substitution. Wherever a replaced type
parameter is met, it is met with the type that replaces it, and a type is its own common supertype.
-/

namespace ScriptTyping

namespace Ty

variable {s : Substitution} {t : Ty}

/-! ## Exposed type parameters -/

mutual
/-- The names of the type parameters that stand inside nothing but functions and type arguments. -/
def exposed : Ty → List String
  | func params result => exposedParams params ++ exposed result
  | nominal _ _ (some args) => exposedList args
  | param p => [p.name]
  | _ => []

def exposedList : List Ty → List String
  | [] => []
  | t :: ts => exposed t ++ exposedList ts

def exposedParams : List (String × Ty) → List String
  | [] => []
  | (_, t) :: ps => exposed t ++ exposedParams ps
end

theorem exposedParams_eq (ps : List (String × Ty)) :
    exposedParams ps = exposedList (ps.map (·.2)) := by
  induction ps <;> simp [exposedParams, exposedList, *]

theorem instantiate_bound (id : DefId) (name : String) (ts : List Ty) (s : Substitution) :
    (nominal id name (some ts)).instantiate s =
      nominal id name (some (ts.map fun t => t.instantiate s)) := by
  unfold instantiate
  split
  · simp
  · simp [replace, replaceList_eq_map]

theorem instantiate_param (p : TypeParam) (s : Substitution) :
    (param p).instantiate s = (s.get? p.name).getD (param p) := by
  unfold instantiate
  split
  · rename_i hempty
    rw [(OrderedMap.isEmpty_iff s).mp hempty, Option.getD_none]
  · rfl

end Ty

namespace Inference

variable {ds : Definitions} {s : Substitution} {name : String} {t u : Ty}

theorem commonSupertype_self (hheight : u.height ≤ 32) (hnan : u.NaNFree) (hknown : u.Known) :
    ds.commonSupertype u u = u := by
  unfold Definitions.commonSupertype
  rw [hknown.not_isUnknown, ds.isAssignable_refl u hheight hnan hknown.unmixed]
  rfl

theorem join?_replicate (hself : ds.commonSupertype u u = u) (n : Nat) :
    join? ds (List.replicate n u) = if n = 0 then none else some u := by
  cases n with
  | zero => rfl
  | succ n =>
    have hfold : (List.replicate n u).foldl ds.commonSupertype u = u := by
      induction n with
      | zero => rfl
      | succ n ih => rw [List.replicate_succ, List.foldl_cons, hself, ih]
    rw [List.replicate_succ, join?_cons, hfold, if_neg (Nat.succ_ne_zero n)]

theorem partsOf_pairingsList_instantiate {ts : List Ty}
    (h : ∀ t ∈ ts, partsOf name (pairings ds t (t.instantiate s)) =
      List.replicate (t.exposed.count name) u) :
    partsOf name (pairingsList ds ts (ts.map fun t => t.instantiate s)) =
      List.replicate ((Ty.exposedList ts).count name) u := by
  induction ts with
  | nil => rfl
  | cons t ts ih =>
    have hrest := ih fun x hx => h x (by simp [hx])
    rw [List.map_cons, pairingsList, partsOf_append, h t (by simp), hrest, Ty.exposedList,
      List.count_append, List.replicate_append_replicate]

/-- A replaced parameter is met once for each place where it is exposed, with what replaces it. -/
theorem partsOf_pairings_instantiate (hget : s.get? name = some u) (hknown : u.Known) :
    partsOf name (pairings ds t (t.instantiate s)) = List.replicate (t.exposed.count name) u := by
  have hnone : ∀ {t : Ty}, t.exposed = [] → (∀ v, pairings ds t v = []) →
      partsOf name (pairings ds t (t.instantiate s)) =
        List.replicate (t.exposed.count name) u := by
    intro t hexposed hpairings
    rw [hexposed, hpairings]
    rfl
  induction t with
  | unknown | never | literal | union =>
    exact hnone rfl fun v => by cases v <;> simp [pairings]
  | func ps r ihp ihr =>
    have hinputs : ∀ t ∈ ps.map (·.2), partsOf name (pairings ds t (t.instantiate s)) =
        List.replicate (t.exposed.count name) u := by
      intro t ht
      obtain ⟨p, hp, rfl⟩ := List.mem_map.mp ht
      exact ihp p hp
    have hparams := partsOf_pairingsList_instantiate hinputs
    rw [List.map_map] at hparams
    rw [Ty.instantiate_func, pairings, partsOf_append, pairingsParams_eq, List.map_map, ihr,
      Ty.exposed, Ty.exposedParams_eq, List.count_append, ← List.replicate_append_replicate]
    exact congrArg (· ++ _) hparams
  | nominal id n args ih =>
    cases args with
    | none => exact hnone rfl fun v => by cases v <;> simp [pairings]
    | some ts =>
      rw [Ty.instantiate_bound, pairings, Definitions.ancestorArgs?_self, Ty.exposed]
      exact partsOf_pairingsList_instantiate (ih ts rfl)
  | param p =>
    rw [Ty.instantiate_param, Ty.exposed]
    by_cases hname : p.name = name
    · have hpairings : pairings ds (.param p) u = [(p.name, u)] := by
        cases u <;> first | rfl | exact absurd hknown Ty.known_unknown
      rw [hname, hget, Option.getD_some, hpairings, partsOf_cons, hname]
      simp [partsOf]
    · have hpairings : ∀ v, partsOf name (pairings ds (.param p) v) = [] := by
        intro v
        cases v <;> simp [pairings, partsOf, hname]
      rw [hpairings, List.count_singleton]
      simp [hname]

/-- A new inference from a type and what it becomes under a substitution of the free names binds the
names that are exposed in the type, and each of them to what replaces it. -/
theorem infer_instantiate (ds : Definitions) (parameter : Ty) (free : List String)
    (s : Substitution) (hheight : parameter.height ≤ 60)
    (hnames : ∀ name, s.contains name = true ↔ name ∈ free) (hknown : s.All Ty.Known)
    (hnan : s.All Ty.NaNFree) (hlow : s.All (·.height ≤ 30)) (name : String) :
    ((⟨free, .empty⟩ : Inference).infer ds parameter (parameter.instantiate s)).bindings.get? name =
      if name ∈ free ∧ name ∈ parameter.exposed then s.get? name else none := by
  have hlimit : maxRelationDepth = 64 := rfl
  have hdepth : ∀ c ∈ [(parameter, parameter.instantiate s)], c.1.height ≤ maxRelationDepth + 1 ∨
      ds.ArgumentFreeBases ∧ c.2.height ≤ maxRelationDepth + 1 := by
    intro c hc
    obtain rfl := List.mem_singleton.mp hc
    exact Or.inl (Nat.le_trans hheight (by omega))
  have hread := get?_inferAll hdepth free name
  rw [inferAll, List.foldl_cons, List.foldl_nil, allPairings, List.flatMap_singleton] at hread
  rw [hread]
  by_cases hfree : name ∈ free
  · obtain ⟨u, hget⟩ := Option.isSome_iff_exists.mp ((hnames name).mpr hfree)
    have hself : ds.commonSupertype u u = u :=
      commonSupertype_self (by have := hlow name u hget; omega) (hnan name u hget)
        (hknown name u hget)
    rw [partsOf_pairings_instantiate hget (hknown name u hget), join?_replicate hself]
    simp [hfree, hget, List.count_eq_zero]
  · simp [hfree]

/-- `T` is exposed three times, once in an input's input, and `U` stands inside a union only. -/
theorem callback_over_lists_inferred :
    let t : Ty := .param ⟨"T", .output⟩
    let parameter : Ty := .func
      [("visit", .func [("item", t), ("other", .union [.param ⟨"U", .invariant⟩, Ty.null])] .never),
        ("items", Ty.listOf t)] t
    let s : Substitution := .ofList [("T", .union [Ty.string, Ty.listOf t]), ("U", Ty.number)]
    let inferred := (⟨["U", "T"], .empty⟩ : Inference).infer .builtin parameter
      (parameter.instantiate s)
    inferred.bindings.get? "T" = some (.union [Ty.string, Ty.listOf t]) ∧
      inferred.bindings.get? "U" = none := by
  intro t parameter s inferred
  have hall : ∀ {P : Ty → Prop}, P (.union [Ty.string, Ty.listOf t]) → P Ty.number → s.All P := by
    intro P hunion hnumber name u hget
    rcases List.mem_cons.mp (OrderedMap.mem_of_get?_ofList hget) with h | h
    · cases h
      exact hunion
    · cases List.mem_singleton.mp h
      exact hnumber
  have hnames : ∀ name, s.contains name = true ↔ name ∈ ["U", "T"] := by
    intro name
    by_cases ht : "T" = name
    · subst ht
      decide
    · by_cases hu : "U" = name
      · subst hu
        decide
      · have hnone : s.get? name = none := by
          rw [OrderedMap.get?_ofList_cons, OrderedMap.get?_ofList_cons, if_neg ht, if_neg hu]
          rfl
        simp [OrderedMap.contains, hnone, Ne.symm ht, Ne.symm hu]
  have hread := infer_instantiate .builtin parameter ["U", "T"] s (by decide) hnames
    (hall (by decide) (by decide)) (hall (by decide) (by decide)) (hall (by decide) (by decide))
  exact ⟨(hread "T").trans (by decide), (hread "U").trans (by decide)⟩

end Inference

end ScriptTyping
