import ScriptTyping.Proofs.Bounds
import ScriptTyping.Proofs.FlatUnions
import ScriptTyping.Proofs.UnionNormalForm

/-!
# Widening is a closure

A type goes to the widened type, widening twice is widening once, and widening keeps what goes to
what. It is enough to look at alternatives: one that is a literal becomes its backing type and any
other stays as it is, so two of them are related afterwards if they were before.
-/

namespace ScriptTyping

namespace Ty

variable {t u : Ty} {ts : List Ty}

/-! ## Alternatives -/

/-- A literal type is the one of its value. -/
def ownBacking : Ty → Bool
  | literal value backing => decide (literal value backing = ofLiteral value)
  | _ => true

/-- The literals among the alternatives are backed by the built-in types of their values. -/
def Backed (t : Ty) : Prop := ∀ u ∈ t.alternatives, u.ownBacking = true

instance (t : Ty) : Decidable t.Backed := inferInstanceAs (Decidable (∀ u ∈ t.alternatives, _))

/-- No NaN literal inside a function type or a type argument. An alternative may be one. -/
def NaNFreeInside (t : Ty) : Prop := ∀ u ∈ t.alternatives, ∀ c ∈ u.components, c.NaNFree

instance (t : Ty) : Decidable t.NaNFreeInside :=
  inferInstanceAs (Decidable (∀ u ∈ t.alternatives, ∀ c ∈ u.components, c.NaNFree))

theorem backing_of_ownBacking {value : LiteralValue} {backing : Ty}
    (h : (literal value backing).ownBacking = true) :
    literal value backing = ofLiteral value ∧ ∃ id name, backing = nominal id name none := by
  have hown : literal value backing = ofLiteral value := of_decide_eq_true h
  refine ⟨hown, ?_⟩
  cases value <;> cases hown <;> exact ⟨_, _, rfl⟩

theorem backing_eq_of_same {v w : LiteralValue} {b c : Ty} (hb : (literal v b).ownBacking = true)
    (hc : (literal w c).ownBacking = true) (h : v.same w = true) : b = c := by
  obtain ⟨hb, -⟩ := backing_of_ownBacking hb
  obtain ⟨hc, -⟩ := backing_of_ownBacking hc
  cases v <;> cases w <;> simp_all [LiteralValue.same, ofLiteral]

theorem Flat.exists_alternative (h : t.Flat) : ∃ u, u ∈ t.alternatives := by
  cases t with
  | union us => exact List.exists_mem_of_length_pos (Nat.lt_of_lt_of_le Nat.two_pos h.1)
  | _ => exact ⟨_, List.mem_singleton_self _⟩

theorem Flat.unionOf_alternatives (h : t.Flat) : unionOf t.alternatives = t := by
  cases t with
  | union => exact h.unionOf_members
  | _ => rfl

theorem widen_alternative (hflat : t.Flat) (hback : t.Backed) (hu : u ∈ t.alternatives) :
    u.widen.isUnion = false ∧ u.widen.widen = u.widen := by
  have hunion := hflat.shallow u hu
  cases u with
  | literal v b =>
    obtain ⟨-, id, name, rfl⟩ := backing_of_ownBacking (hback _ hu)
    exact ⟨rfl, rfl⟩
  | union => cases hunion
  | _ => exact ⟨rfl, rfl⟩

theorem widen_eq_unionOf (hflat : t.Flat) (hback : t.Backed) :
    t.widen = unionOf (t.alternatives.map widen) := by
  cases t with
  | union ms => rw [widen, widenList_eq_map, alternatives]
  | _ =>
    obtain ⟨hunion, -⟩ := widen_alternative hflat hback (List.mem_singleton_self _)
    exact (flat_of_not_union hunion).unionOf_self.symm

theorem Flat.height_widen_le (hflat : t.Flat) (hback : t.Backed) : t.widen.height ≤ t.height := by
  have halternative : ∀ u ∈ t.alternatives, u.widen.height ≤ u.height := by
    intro u hu
    have hunion := hflat.shallow u hu
    cases u with
    | literal v b => exact Nat.le_of_lt (height_lt_of_component (List.mem_singleton_self b))
    | union => cases hunion
    | _ => exact Nat.le_refl _
  cases t with
  | union us =>
    rw [widen_eq_unionOf hflat hback, height]
    refine height_unionOf_le fun w hw => ?_
    obtain ⟨u, hu, rfl⟩ := List.mem_map.mp hw
    exact Nat.le_trans (halternative u hu) (height_le_heightList hu)
  | _ => exact halternative _ (List.mem_singleton_self _)

/-! ## Idempotence -/

theorem mem_of_alternative_unionOf (hts : ∀ t ∈ ts, t.isUnion = false)
    (hu : u ∈ (unionOf ts).alternatives) : u = never ∨ u ∈ ts := by
  have hflatten : ∀ u ∈ flatten ts, u ∈ ts := by
    intro u hu
    obtain ⟨t, ht, hut, -⟩ := exists_of_mem_flatten hu
    have hunion := hts t ht
    cases t with
    | union => cases hunion
    | _ => rwa [List.mem_singleton.mp hut]
  refine unionOf_cases (P := fun t => u ∈ t.alternatives → u = never ∨ u ∈ ts)
    (fun h => Or.inl (List.mem_singleton.mp h)) (fun t ht h => Or.inr ?_)
    (fun _ h => Or.inr (hflatten u h)) hu
  have hunion := hts t (hflatten t ht)
  cases t with
  | union => cases hunion
  | _ => exact (List.mem_singleton.mp h) ▸ hflatten _ ht

theorem widen_eq_self (hflat : t.Flat) (h : ∀ u ∈ t.alternatives, u.widen = u) : t.widen = t := by
  cases t with
  | union us =>
    have hmembers : us.map widen = us := (List.map_congr_left h).trans (List.map_id' us)
    rw [widen, widenList_eq_map, hmembers]
    exact hflat.unionOf_members
  | _ => exact h _ (List.mem_singleton_self _)

theorem widen_widen (hflat : t.Flat) (hback : t.Backed) : t.widen.widen = t.widen := by
  have hmembers : ∀ u ∈ t.alternatives.map widen, u.isUnion = false ∧ u.widen = u := by
    intro w hw
    obtain ⟨u, hu, rfl⟩ := List.mem_map.mp hw
    exact widen_alternative hflat hback hu
  have hself : ∀ u ∈ t.widen.alternatives, u.widen = u := by
    rw [widen_eq_unionOf hflat hback]
    intro u hu
    rcases mem_of_alternative_unionOf (fun u hu => (hmembers u hu).1) hu with rfl | hu
    · rfl
    · exact (hmembers u hu).2
  have hwiden : t.widen.Flat := by
    rw [widen_eq_unionOf hflat hback]
    exact flat_unionOf fun u hu => (flat_of_not_union (hmembers u hu).1).shallow
  exact widen_eq_self hwiden hself

end Ty

namespace Definitions

open Ty (Backed NaNFreeInside)

variable {ds : Definitions} {s t a b c : Ty}

/-! ## One alternative -/

theorem simple_of_alternative (hflat : t.Flat) (hknown : t.Known) (hnever : t ≠ .never)
    (ha : a ∈ t.alternatives) : Simple a ∧ a.Known := by
  have hmember : a.Known ∧ a ≠ .never := by
    cases t with
    | union ms =>
      refine ⟨hknown.component ha, ?_⟩
      rintro rfl
      simpa [Ty.isNever] using (hflat.2.1 _ ha).2
    | _ =>
      rw [List.mem_singleton.mp ha]
      exact ⟨hknown, hnever⟩
  have hunion := hflat.shallow a ha
  refine ⟨?_, hmember.1⟩
  cases a with
  | unknown => simp at hmember
  | never => exact absurd rfl hmember.2
  | union => cases hunion
  | _ => trivial

theorem relatesFully_bare (ds : Definitions) (id : DefId) (name : String) :
    ds.relatesFully (.nominal id name none) (.nominal id name none) = true :=
  ds.relatesFully_refl (by simp) (Ty.nanFree_iff.mpr ⟨rfl, by simp [Ty.components]⟩)

theorem simple_widen (hs : Simple s) (hback : s.ownBacking = true) : Simple s.widen := by
  cases s with
  | literal v b =>
    obtain ⟨-, id, name, rfl⟩ := Ty.backing_of_ownBacking hback
    trivial
  | unknown | never | union => exact hs.elim
  | _ => trivial

namespace ArgumentFreeBases

variable (h : ds.ArgumentFreeBases)

include h

theorem relatesFully_widen_alternative (hs : Simple s) (hknown : s.Known)
    (hback : s.ownBacking = true) (hnan : ∀ c ∈ s.components, c.NaNFree) :
    ds.relatesFully s s.widen = true := by
  cases s with
  | literal v b =>
    obtain ⟨-, id, name, rfl⟩ := Ty.backing_of_ownBacking hback
    rw [h.relatesFully_eq, Ty.widen, relates]
    exact ds.relatesFully_bare id name
  | unknown | never | union => exact hs.elim
  | _ => exact ds.relatesFully_refl hknown (Ty.nanFree_iff.mpr ⟨rfl, hnan⟩)

/-- A literal goes to literals of its value and to what its backing type goes to; no other simple
type goes to a literal. -/
theorem widen_alternative_relatesFully (hs : Simple s) (ht : Simple t)
    (hback : s.ownBacking = true) (hback' : t.ownBacking = true)
    (hst : ds.relatesFully s t = true) : ds.relatesFully s.widen t.widen = true := by
  rw [h.relatesFully_eq] at hst
  cases s with
  | unknown | never | union => exact hs.elim
  | literal v b =>
    cases t with
    | unknown | never | union => exact ht.elim
    | literal w b' =>
      rw [relates] at hst
      rw [Ty.widen, Ty.widen, ← Ty.backing_eq_of_same hback hback' hst]
      obtain ⟨-, id, name, rfl⟩ := Ty.backing_of_ownBacking hback
      exact ds.relatesFully_bare id name
    | nominal => rwa [relates] at hst
    | func | param => simp [relates] at hst
  | _ =>
    cases t with
    | unknown | never | union => exact ht.elim
    | literal => simp [relates] at hst
    | _ => rwa [← h.relatesFully_eq] at hst

/-! ## All alternatives -/

theorem relatesFully_widen_iff (hc : Simple c) (hflat : t.Flat) (hback : t.Backed) :
    ds.relatesFully c t.widen = true ↔ ∃ a ∈ t.alternatives, ds.relatesFully c a.widen = true := by
  rw [Ty.widen_eq_unionOf hflat hback, h.relatesFully_unionOf hc]
  simp

theorem not_corner (hc : Simple c) (hknown : c.Known) (hct : ds.relatesFully c t = true) :
    ¬ Corner t := by
  intro hcorner
  obtain rfl := h.eq_never_of_corner hknown hcorner hct
  exact hc

theorem relatesFully_widen (hflat : t.Flat) (hknown : t.Known) (hback : t.Backed)
    (hnan : t.NaNFreeInside) : ds.relatesFully t t.widen = true := by
  by_cases hnever : t = .never
  · rw [hnever]
    exact h.relatesFully_never _
  have hall : ∀ a ∈ t.alternatives, Simple a ∧ a.Known ∧ ds.relatesFully a t.widen = true := by
    intro a ha
    obtain ⟨hsimple, hka⟩ := simple_of_alternative hflat hknown hnever ha
    refine ⟨hsimple, hka, (h.relatesFully_widen_iff hsimple hflat hback).mpr ⟨a, ha, ?_⟩⟩
    exact h.relatesFully_widen_alternative hsimple hka (hback a ha) (hnan a ha)
  obtain ⟨a, ha⟩ := hflat.exists_alternative
  obtain ⟨hsimple, hka, hwiden⟩ := hall a ha
  have hto := h.unionOf_relatesFully (h.not_corner hsimple hka hwiden) t.alternatives
  rw [hflat.unionOf_alternatives] at hto
  exact hto.mpr fun a ha => (hall a ha).2.2

theorem widen_relatesFully_widen (hs : s.Flat) (ht : t.Flat) (hks : s.Known) (hkt : t.Known)
    (hbs : s.Backed) (hbt : t.Backed) (hst : ds.relatesFully s t = true) :
    ds.relatesFully s.widen t.widen = true := by
  by_cases hnever : s = .never
  · rw [hnever]
    exact h.relatesFully_never _
  have hcorner : ¬ Corner t := fun hcorner => hnever (h.eq_never_of_corner hks hcorner hst)
  have hfrom := h.unionOf_relatesFully hcorner s.alternatives
  rw [hs.unionOf_alternatives] at hfrom
  have hall : ∀ a ∈ s.alternatives, Simple a.widen ∧ a.widen.Known ∧
      ds.relatesFully a.widen t.widen = true := by
    intro a ha
    obtain ⟨hsimple, hka⟩ := simple_of_alternative hs hks hnever ha
    have hwiden := simple_widen hsimple (hbs a ha)
    have hat := hfrom.mp hst a ha
    rw [← ht.unionOf_alternatives, h.relatesFully_unionOf hsimple] at hat
    obtain ⟨b, hb, hab⟩ := hat
    have hsimple' := (simple_of_alternative ht hkt (fun hnever => hcorner (Or.inl hnever)) hb).1
    refine ⟨hwiden, (Ty.known_widen a).mpr hka, (h.relatesFully_widen_iff hwiden ht hbt).mpr ?_⟩
    exact ⟨b, hb, h.widen_alternative_relatesFully hsimple hsimple' (hbs a ha) (hbt b hb) hab⟩
  obtain ⟨a, ha⟩ := hs.exists_alternative
  obtain ⟨hsimple, hka, hwiden⟩ := hall a ha
  rw [Ty.widen_eq_unionOf hs hbs]
  refine (h.unionOf_relatesFully (h.not_corner hsimple hka hwiden) _).mpr fun u hu => ?_
  obtain ⟨b, hb, rfl⟩ := List.mem_map.mp hu
  exact (hall b hb).2.2

end ArgumentFreeBases

/-! ## The closure -/

/-- Every type without NaN literals inside goes to its widened type, which widening leaves as it is,
and of two types that go to each other the widened ones do so too. -/
theorem widen_closure (h : ds.ArgumentFreeBases) (ha : a.Flat) (hka : a.Known) (hba : a.Backed)
    (hah : a.height ≤ 32) :
    (a.NaNFreeInside → ds.isAssignable a a.widen = true) ∧
    a.widen.widen = a.widen ∧
    ∀ b : Ty, b.Flat → b.Known → b.Backed → b.height ≤ 32 → ds.isAssignable a b = true →
      ds.isAssignable a.widen b.widen = true := by
  have hlimit : maxRelationDepth = 64 := rfl
  have hwiden := ha.height_widen_le hba
  refine ⟨fun hnan => ?_, Ty.widen_widen ha hba, fun b hb hkb hbb hbh hab => ?_⟩
  · rw [h.isAssignable_eq (by omega)]
    exact h.relatesFully_widen ha hka hba hnan
  · have hwiden' := hb.height_widen_le hbb
    rw [h.isAssignable_eq (by omega)] at hab ⊢
    exact h.widen_relatesFully_widen ha hb hka hkb hba hbb hab

/-- Two numbers, one of them NaN, and a list of zeros: the union loses a member, and the literal in
the list stays. -/
def numbersOrZeros : Ty := .union [Ty.nan, Ty.zero, Ty.listOf Ty.zero]

theorem numbers_join_when_widened :
    builtin.isAssignable numbersOrZeros (.union [Ty.number, Ty.listOf Ty.zero]) = true ∧
      numbersOrZeros.widen.widen = .union [Ty.number, Ty.listOf Ty.zero] ∧
      builtin.isAssignable (.union [Ty.number, Ty.listOf Ty.zero])
        (.union [Ty.listOf Ty.number, Ty.string, Ty.number]) = true := by
  have hwiden : numbersOrZeros.widen = .union [Ty.number, Ty.listOf Ty.zero] := by decide
  have hwiden' : (Ty.union [Ty.listOf Ty.number, .ofLiteral (.text "a"), Ty.number]).widen =
      .union [Ty.listOf Ty.number, Ty.string, Ty.number] := by decide
  have hbases : builtin.ArgumentFreeBases := by decide
  have hflat : numbersOrZeros.Flat := by decide
  obtain ⟨hextends, hagain, hmono⟩ :=
    widen_closure hbases hflat (by decide) (by decide) (by decide)
  have hlarger := hmono (.union [Ty.listOf Ty.number, .ofLiteral (.text "a"), Ty.number])
    (by decide) (by decide) (by decide) (by decide) (by decide)
  rw [hwiden] at hextends hagain hlarger
  rw [hwiden'] at hlarger
  rw [hwiden]
  exact ⟨hextends (by decide), hagain, hlarger⟩

end Definitions

end ScriptTyping
