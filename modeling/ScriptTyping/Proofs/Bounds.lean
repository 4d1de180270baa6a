import ScriptTyping.Proofs.KnownDefinitions
import ScriptTyping.Proofs.Reflexivity

/-!
# Bounds of two types

Narrowing gives a type below both of its types, and the common supertype of two types is the least
type above both. Either result is one of the two types, or a union that is built from parts of them:
what goes to a member goes to the union, and a union goes where its members go.
-/

namespace ScriptTyping.Definitions

variable {ds : Definitions} {s t a b c m asserted declared : Ty} {ts ms : List Ty}

theorem relatesFully_refl (ds : Definitions) (ht : t.Known) (hnan : t.NaNFree) :
    ds.relatesFully t t = true :=
  ds.assignableWithin_of_branch hnan ht.unmixed ht.unmixed (.self t) (.refl t) (Nat.le_refl _)

namespace ArgumentFreeBases

variable (h : ds.ArgumentFreeBases)

include h

/-! ## Unions as sources and as targets -/

@[simp] theorem relatesFully_never (t : Ty) : ds.relatesFully .never t = true := by
  rw [h.relatesFully_eq]
  simp [relates]

theorem eq_never_of_corner (hs : s.Known) (ht : Corner t) (hst : ds.relatesFully s t = true) :
    s = .never := by
  rw [h.relatesFully_eq] at hst
  rcases ht with rfl | rfl <;> cases s <;> simp_all [relates]

theorem union_relatesFully (ht : ¬ Corner t) (ms : List Ty) :
    ds.relatesFully (.union ms) t = true ↔ ∀ m ∈ ms, ds.relatesFully m t = true := by
  rw [h.relatesFully_eq]
  exact union_relates ((corner_or_not t).resolve_left ht)

theorem unionOf_relatesFully (ht : ¬ Corner t) (ts : List Ty) :
    ds.relatesFully (Ty.unionOf ts) t = true ↔ ∀ u ∈ ts, ds.relatesFully u t = true := by
  refine Ty.unionOf_iff (P := fun u => ds.relatesFully u t = true) (fun u v huv => ?_)
    (h.relatesFully_never t) (h.union_relatesFully ht) ts
  rw [h.relatesFully_congr (Ty.alike_of_beq huv) (.refl t)]

theorem relatesFully_of_simple (hs : s.Known) (hb : ¬ Corner b)
    (hsimple : ∀ c, Simple c → ds.relatesFully c a = true → ds.relatesFully c b = true)
    (hsa : ds.relatesFully s a = true) : ds.relatesFully s b = true := by
  induction s with
  | unknown => simp at hs
  | never => exact h.relatesFully_never b
  | union us ih =>
    have ha : ¬ Corner a := fun ha => by simpa using h.eq_never_of_corner hs ha hsa
    rw [h.union_relatesFully ha] at hsa
    rw [h.union_relatesFully hb]
    exact fun u hu => ih u hu (hs.component hu) (hsa u hu)
  | _ => exact hsimple _ trivial hsa

theorem relatesFully_union (hs : s.Known) (hm : m ∈ ms) (hsm : ds.relatesFully s m = true) :
    ds.relatesFully s (.union ms) = true := by
  refine h.relatesFully_of_simple hs (by simp [Corner]) (fun c hc hcm => ?_) hsm
  rw [h.relatesFully_eq, relates_to_union hc]
  exact ⟨m, hm, hcm⟩

/-! ## Below both -/

theorem narrow_relatesFully (ha : asserted.Known) (hd : declared.Known) (hna : asserted.NaNFree)
    (hnd : declared.NaNFree) (hah : asserted.height ≤ 32) (hdh : declared.height ≤ 32) :
    ds.relatesFully (ds.narrow asserted declared) declared = true ∧
      ds.relatesFully (ds.narrow asserted declared) asserted = true := by
  have hlimit : maxRelationDepth = 64 := rfl
  refine narrow_induct (P := fun d n => d.Known → d.NaNFree → d.height ≤ 32 →
      ds.relatesFully n d = true ∧ ds.relatesFully n asserted = true) ha
    (fun d hle hd hnd hdh => ?_) (fun d hle hd hnd hdh => ?_)
    (fun ms _ hnot ih hd hnd hdh => ?_) (fun d _ _ _ _ _ _ => ?_) hd hd hnd hdh
  · rw [h.isAssignable_eq (by omega)] at hle
    exact ⟨ds.relatesFully_refl hd hnd, hle⟩
  · rw [h.isAssignable_eq (by omega)] at hle
    exact ⟨hle, ds.relatesFully_refl ha hna⟩
  · have hparts : ∀ n ∈ (ms.map (ds.narrow asserted)).filter fun t => !t.isNever,
        ds.relatesFully n (.union ms) = true ∧ ds.relatesFully n asserted = true := by
      intro n hn
      obtain ⟨m, hm, rfl⟩ := List.mem_map.mp (List.mem_of_mem_filter hn)
      have hlt := Ty.height_lt_of_component (t := .union ms) hm
      obtain ⟨hnm, hna⟩ := ih m hm (hd.component hm) (hnd.component hm) (by omega)
      exact ⟨h.relatesFully_union (known_narrow ha (hd.component hm)) hm hnm, hna⟩
    -- Never goes to each type, so a union that is split was not compared with it.
    have hcorner : ¬ Corner asserted := by
      rintro (rfl | rfl)
      · rw [h.isAssignable_eq (by omega), h.relatesFully_never] at hnot
        cases hnot
      · simp at ha
    exact ⟨(h.unionOf_relatesFully (by simp [Corner]) _).mpr fun n hn => (hparts n hn).1,
      (h.unionOf_relatesFully hcorner _).mpr fun n hn => (hparts n hn).2⟩
  · exact ⟨h.relatesFully_never d, h.relatesFully_never asserted⟩

/-! ## Above both -/

theorem commonSupertype_cases {P : Ty → Prop} (ha : a.Known) (hb : b.Known)
    (hheight : a.height + b.height ≤ maxRelationDepth)
    (left : ds.relatesFully a b = true → P b) (right : ds.relatesFully b a = true → P a)
    (apart : ¬ Corner a → ¬ Corner b → ds.relatesFully a b = false → P (Ty.unionOf [a, b])) :
    P (ds.commonSupertype a b) := by
  have hcorner : ∀ {s t}, s.Known → ds.relatesFully s t = false → ¬ Corner s := by
    rintro s t hs hst (rfl | rfl)
    · simp [h.relatesFully_never] at hst
    · simp at hs
  simp only [commonSupertype, ha.not_isUnknown, hb.not_isUnknown, Bool.or_self, Bool.false_eq_true,
    if_false, h.isAssignable_eq hheight, h.isAssignable_eq (Nat.add_comm _ _ ▸ hheight)]
  split
  · exact left ‹_›
  · rename_i hab
    rw [Bool.not_eq_true] at hab
    split
    · exact right ‹_›
    · rename_i hba
      rw [Bool.not_eq_true] at hba
      exact apart (hcorner ha hab) (hcorner hb hba) hab

theorem relatesFully_commonSupertype (ha : a.Known) (hb : b.Known) (hna : a.NaNFree)
    (hnb : b.NaNFree) (hheight : a.height + b.height ≤ maxRelationDepth) :
    ds.relatesFully a (ds.commonSupertype a b) = true ∧
      ds.relatesFully b (ds.commonSupertype a b) = true := by
  refine h.commonSupertype_cases
    (P := fun s => ds.relatesFully a s = true ∧ ds.relatesFully b s = true) ha hb hheight
    (fun hab => ?_) (fun hba => ?_) fun _ hcb hab => ?_
  · exact ⟨hab, ds.relatesFully_refl hb hnb⟩
  · exact ⟨ds.relatesFully_refl ha hna, hba⟩
  · -- Two unions of nothing would make never, but then each would go to the other.
    have hunion : ¬ Corner (Ty.unionOf [a, b]) := by
      rintro (hnever | hunknown)
      · have hall := (h.unionOf_relatesFully hcb [a, b]).mp (by rw [hnever, h.relatesFully_never])
        simp [hall a (by simp)] at hab
      · have hknown := (Ty.known_unionOf [a, b]).mpr (by simp [ha, hb])
        simp [hunknown] at hknown
    have hmember : ∀ t ∈ [a, b], ∀ c, Simple c → ds.relatesFully c t = true →
        ds.relatesFully c (Ty.unionOf [a, b]) = true :=
      fun t ht c hc hct => (h.relatesFully_unionOf hc [a, b]).mpr ⟨t, ht, hct⟩
    exact ⟨h.relatesFully_of_simple ha hunion (hmember a (by simp)) (ds.relatesFully_refl ha hna),
      h.relatesFully_of_simple hb hunion (hmember b (by simp)) (ds.relatesFully_refl hb hnb)⟩

theorem commonSupertype_relatesFully (ha : a.Known) (hb : b.Known)
    (hheight : a.height + b.height ≤ maxRelationDepth) (hac : ds.relatesFully a c = true)
    (hbc : ds.relatesFully b c = true) : ds.relatesFully (ds.commonSupertype a b) c = true := by
  refine h.commonSupertype_cases (P := fun s => ds.relatesFully s c = true) ha hb hheight
    (fun _ => hbc) (fun _ => hac) fun hca _ _ => ?_
  have hcc : ¬ Corner c := fun hc => hca (Or.inl (h.eq_never_of_corner ha hc hac))
  rw [h.unionOf_relatesFully hcc]
  simp [hac, hbc]

theorem height_commonSupertype_le {n : Nat} (ha : a.Known) (hb : b.Known)
    (hheight : a.height + b.height ≤ maxRelationDepth) (hah : a.height ≤ n) (hbh : b.height ≤ n) :
    (ds.commonSupertype a b).height ≤ n + 1 := by
  refine h.commonSupertype_cases (P := fun t => t.height ≤ n + 1) ha hb hheight (fun _ => by omega)
    (fun _ => by omega) fun _ _ _ => Ty.height_unionOf_le ?_
  simp [hah, hbh]

end ArgumentFreeBases

/-! ## Within the limit -/

theorem narrow_eq_self (ha : asserted.Known) (ht : t.Known)
    (hle : ds.isAssignable t asserted = true) : ds.narrow asserted t = t := by
  unfold narrow
  simp [ht.not_isUnknown, ha.not_isUnknown, hle]

/-- The narrowed type is below the declared and the asserted one, and the same guard changes it no
more. -/
theorem narrow_below_both (h : ds.ArgumentFreeBases) (hd : declared.Known) (ha : asserted.Known)
    (hnd : declared.NaNFree) (hna : asserted.NaNFree) (hdh : declared.height ≤ 20)
    (hah : asserted.height ≤ 20) :
    ds.isAssignable (ds.narrow asserted declared) declared = true ∧
      ds.isAssignable (ds.narrow asserted declared) asserted = true ∧
      ds.narrow asserted (ds.narrow asserted declared) = ds.narrow asserted declared := by
  have hlimit : maxRelationDepth = 64 := rfl
  have hheight : (ds.narrow asserted declared).height ≤ declared.height + asserted.height :=
    height_narrow_le ha hd
  obtain ⟨hdeclared, hasserted⟩ := h.narrow_relatesFully ha hd hna hnd (by omega) (by omega)
  rw [← h.isAssignable_eq (by omega)] at hdeclared hasserted
  exact ⟨hdeclared, hasserted, narrow_eq_self ha (known_narrow ha hd) hasserted⟩

/-- Two alternatives are within the guard, one of them inside a nested union. -/
theorem nested_alternatives_below_both :
    let declared : Ty :=
      .union [.ofLiteral (.text "a"), .union [.ofLiteral (.boolean true), Ty.number]]
    let asserted : Ty := .union [Ty.string, Ty.boolean]
    builtin.isAssignable (builtin.narrow asserted declared) declared = true ∧
      builtin.isAssignable (builtin.narrow asserted declared) asserted = true ∧
      builtin.narrow asserted (builtin.narrow asserted declared) =
        builtin.narrow asserted declared :=
  narrow_below_both (by decide) (by decide) (by decide) (by decide) (by decide) (by decide)
    (by decide)

/-- The common supertype is above both types, and below every type that is. So it does not matter
which of the two comes first. -/
theorem commonSupertype_least (h : ds.ArgumentFreeBases) (ha : a.Known) (hb : b.Known)
    (hna : a.NaNFree) (hnb : b.NaNFree) (hah : a.height ≤ 30) (hbh : b.height ≤ 30) :
    ds.isAssignable a (ds.commonSupertype a b) = true ∧
      ds.isAssignable b (ds.commonSupertype a b) = true ∧
      (∀ c : Ty, c.height ≤ 30 → ds.isAssignable a c = true → ds.isAssignable b c = true →
        ds.isAssignable (ds.commonSupertype a b) c = true) ∧
      ds.areEquivalent (ds.commonSupertype a b) (ds.commonSupertype b a) = true := by
  have hlimit : maxRelationDepth = 64 := rfl
  have hheight := h.height_commonSupertype_le ha hb (by omega) hah hbh
  have hheight' := h.height_commonSupertype_le hb ha (by omega) hbh hah
  obtain ⟨hleft, hright⟩ := h.relatesFully_commonSupertype ha hb hna hnb (by omega)
  obtain ⟨hright', hleft'⟩ := h.relatesFully_commonSupertype hb ha hnb hna (by omega)
  refine ⟨?_, ?_, fun c hc hac hbc => ?_, ?_⟩
  · rwa [h.isAssignable_eq (by omega)]
  · rwa [h.isAssignable_eq (by omega)]
  · rw [h.isAssignable_eq (by omega)] at hac hbc ⊢
    exact h.commonSupertype_relatesFully ha hb (by omega) hac hbc
  · rw [areEquivalent, h.isAssignable_eq (by omega), h.isAssignable_eq (by omega), Bool.and_eq_true]
    exact ⟨h.commonSupertype_relatesFully ha hb (by omega) hleft' hright',
      h.commonSupertype_relatesFully hb ha (by omega) hright hleft⟩

/-- Neither of two lists goes to the other, and their union goes to a list of either element. -/
theorem lists_below_list_of_either :
    let a := Ty.listOf (.ofLiteral (.text "a"))
    let b : Ty := .union [Ty.listOf Ty.number, .never]
    builtin.isAssignable (builtin.commonSupertype a b)
      (Ty.listOf (.union [.ofLiteral (.text "a"), Ty.number])) = true :=
  (commonSupertype_least (by decide) (by decide) (by decide) (by decide) (by decide) (by decide)
    (by decide)).2.2.1 _ (by decide) (by decide) (by decide)

end ScriptTyping.Definitions
