import ScriptTyping.Proofs.AlikeTypes
import ScriptTyping.Proofs.WellFormedTypes

/-!
# Bases without type arguments

If no base has type arguments, an ancestor has none but those that come from the arguments of the
type below it. So whatever is compared at an ancestor is less high than the type itself.
-/

namespace ScriptTyping

namespace Ty

variable {t u c : Ty} {s : Substitution} {n : Nat}

/-! ## Type arguments inside a type -/

def isBound : Ty → Bool
  | nominal _ _ (some _) => true
  | _ => false

/-- No part of the type has type arguments. -/
def ArgumentFree (t : Ty) : Prop := ∀ u ∈ t.parts, u.isBound = false

instance (t : Ty) : Decidable t.ArgumentFree := inferInstanceAs (Decidable (∀ u ∈ t.parts, _))

/-- What has type arguments inside the type is at most `n` high. -/
def BoundWithin (n : Nat) (t : Ty) : Prop := ∀ u ∈ t.parts, u.isBound = true → u.height ≤ n

theorem boundWithin_height (t : Ty) : t.BoundWithin t.height :=
  fun _ hu _ => height_le_of_mem_parts hu

theorem boundWithin_iff :
    t.BoundWithin n ↔ (t.isBound = true → t.height ≤ n) ∧ ∀ c ∈ t.components, c.BoundWithin n :=
  forall_parts_iff

theorem BoundWithin.component (h : t.BoundWithin n) (hc : c ∈ t.components) : c.BoundWithin n :=
  (boundWithin_iff.mp h).2 c hc

theorem ArgumentFree.replace (h : t.ArgumentFree) (hs : s.All (BoundWithin n)) :
    (t.replace s).BoundWithin n := by
  refine forall_parts_replace h hs (fun _ => by simp [isBound])
    (fun _ => forall_parts_unionOf (by simp [isBound]) (by simp [isBound])) ?_
  intro u hu hparam hunion
  cases u with
  | param p => exact absurd rfl (hparam p)
  | union ts => exact absurd rfl (hunion ts)
  | nominal id name args => cases args <;> simp_all [isBound, Ty.replace]
  | _ => simp [isBound, Ty.replace]

theorem ArgumentFree.instantiate (h : t.ArgumentFree) (hs : s.All (BoundWithin n)) :
    (t.instantiate s).BoundWithin n := by
  unfold Ty.instantiate
  split
  · exact fun u hu hbound => by simp [h u hu] at hbound
  · exact h.replace hs

end Ty

namespace Definitions

open Ty (Alike BoundWithin)

variable {ds : Definitions} {t u : Ty} {name : String}

/-! ## Ancestors -/

/-- No base has type arguments anywhere inside. Chains of bases may be cyclic, and a base may carry
any name. -/
def ArgumentFreeBases (ds : Definitions) : Prop :=
  ∀ d ∈ ds.defs.toList, ∀ b ∈ d.base, b.ArgumentFree

instance (ds : Definitions) : Decidable ds.ArgumentFreeBases :=
  inferInstanceAs (Decidable (∀ d ∈ ds.defs.toList, _))

theorem ArgumentFreeBases.baseOf (h : ds.ArgumentFreeBases) {id : DefId} {args : Option (List Ty)}
    {base : Ty} {n : Nat} (hargs : ∀ ts ∈ args, ∀ u ∈ ts, u.BoundWithin n)
    (hbase : ds.baseOf id args = some base) : base.BoundWithin n := by
  unfold Definitions.baseOf at hbase
  split at hbase
  · cases hbase
  · rename_i d hd
    obtain ⟨b, hb, rfl⟩ := Option.map_eq_some_iff.mp hbase
    refine (h d (Array.mem_toList_iff.mpr (Array.mem_of_getElem? hd)) b hb).instantiate ?_
    unfold argSubstitution
    split
    · exact Substitution.all_ofParams _ (hargs _ rfl)
    · exact Substitution.all_empty

theorem ArgumentFreeBases.ancestorArgs_lt (h : ds.ArgumentFreeBases) {ts : List Ty}
    (hts : ds.ancestorArgs? name t = some (some ts)) : ∀ u ∈ ts, u.height < t.height := by
  -- A base may be higher than the type itself, but nothing with type arguments inside it is.
  have hascend : ∀ {levels n : Nat} {t : Ty}, t.BoundWithin n →
      ds.ascend (fun _ other args => if other = name then some args else none) levels t =
        some (some ts) → ∀ u ∈ ts, u.height < n := by
    intro levels
    induction levels with
    | zero => simp [ascend]
    | succ levels ih =>
      intro n t ht hfound u hu
      cases t with
      | nominal id other args =>
        simp only [ascend] at hfound
        split at hfound
        · rename_i hlook
          cases hfound
          obtain ⟨rfl, rfl⟩ : other = name ∧ args = some ts := by simpa using hlook
          have hlt := Ty.height_lt_of_component (t := .nominal id other (some ts)) hu
          have hle := (Ty.boundWithin_iff.mp ht).1 rfl
          omega
        · split at hfound
          · rename_i base hbase
            refine ih (h.baseOf (fun ts hts u hu => ?_) hbase) hfound u hu
            cases hts
            exact ht.component hu
          · cases hfound
      | _ => simp [ascend] at hfound
  exact hascend t.boundWithin_height hts

theorem baseOf_alike (ds : Definitions) {id : DefId} {other : String} {args args' : Option (List Ty)}
    (h : Alike (.nominal id other args) (.nominal id other args')) :
    Option.Rel Alike (ds.baseOf id args) (ds.baseOf id args') := by
  have hargs : (ds.argSubstitution id args).Alike (ds.argSubstitution id args') := by
    unfold argSubstitution
    cases h.shape with
    | bare =>
      intro name
      simp [OrderedMap.get?, OrderedMap.empty, OrderedMap.find]
    | bound hts =>
      cases ds.get? id with
      | none =>
        intro name
        simp [OrderedMap.get?, OrderedMap.empty, OrderedMap.find]
      | some d => exact Substitution.ofParams_alike d.params hts
  unfold Definitions.baseOf
  cases ds.get? id with
  | none => exact .none
  | some d =>
    dsimp only
    cases d.base with
    | none => exact .none
    | some b => exact .some (Ty.instantiate_alike hargs (.refl b))

theorem ancestorArgs?_alike (ds : Definitions) (h : Alike t u) (name : String) :
    Option.Rel (Option.Rel (List.Forall₂ Alike)) (ds.ancestorArgs? name t)
      (ds.ancestorArgs? name u) := by
  unfold ancestorArgs?
  generalize maxBaseLinks + 1 = levels
  induction levels generalizing t u with
  | zero => simp [ascend]
  | succ levels ih =>
    have hnominal : ∀ {id other args args'}, Option.Rel (List.Forall₂ Alike) args args' →
        Alike (.nominal id other args) (.nominal id other args') →
        Option.Rel (Option.Rel (List.Forall₂ Alike))
          (ds.ascend (fun _ other args => if other = name then some args else none) (levels + 1)
            (.nominal id other args))
          (ds.ascend (fun _ other args => if other = name then some args else none) (levels + 1)
            (.nominal id other args')) := by
      intro id other args args' hargs h
      simp only [ascend]
      by_cases hname : other = name
      · simpa [hname] using hargs
      · have hbase := ds.baseOf_alike h
        simp only [hname, if_false]
        generalize ds.baseOf id args = base at hbase ⊢
        generalize ds.baseOf id args' = base' at hbase ⊢
        cases hbase with
        | none => exact .none
        | some hb => exact ih hb
    cases h.shape with
    | bare => exact hnominal .none h
    | bound hts => exact hnominal (.some hts) h
    | _ => simp [ascend]

end Definitions

end ScriptTyping
