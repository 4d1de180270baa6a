import ScriptTyping.Definitions.Generic
import ScriptTyping.Proofs.TypeParts

/-!
# The same types, and alike ones

Two types are the same if they are alike and have no NaN literal. So it is symmetric and transitive to
be the same, and a type without NaN literals is the same as itself. Unions are built and type
parameters are replaced without telling alike types apart.
-/

namespace ScriptTyping

/-! ## NaN literals -/

namespace LiteralValue

variable {v w : LiteralValue}

def isNaN : LiteralValue → Bool
  | number n => n.isNaN
  | _ => false

theorem same_iff : v.same w = true ↔ v.alike w = true ∧ v.isNaN = false := by
  rw [alike_iff]
  cases v <;> cases w <;> simp only [same, Number.same_iff, isNaN, beq_iff_eq] <;> grind

theorem isNaN_of_alike (h : v.alike w = true) : v.isNaN = w.isNaN := by
  rw [Bool.eq_iff_iff, ← Bool.not_eq_false, ← Bool.not_eq_false]
  rcases alike_iff.mp h with rfl | hsame
  · rfl
  · simp [(same_iff.mp hsame).2, (same_iff.mp (same_symm hsame)).2]

end LiteralValue

namespace Ty

variable {t u t' u' c : Ty}

/-- The literal type of NaN. -/
def isNaN : Ty → Bool
  | literal value _ => value.isNaN
  | _ => false

/-- No part of the type is a NaN literal. -/
def NaNFree (t : Ty) : Prop := ∀ u ∈ t.parts, u.isNaN = false

instance (t : Ty) : Decidable t.NaNFree := inferInstanceAs (Decidable (∀ u ∈ t.parts, _))

theorem nanFree_iff : t.NaNFree ↔ t.isNaN = false ∧ ∀ c ∈ t.components, c.NaNFree :=
  forall_parts_iff

theorem NaNFree.component (h : t.NaNFree) (hc : c ∈ t.components) : c.NaNFree :=
  (nanFree_iff.mp h).2 c hc

/-! ## Being the same -/

section

variable {eq eq' : LiteralValue → LiteralValue → Bool} {P : Ty → Prop}

theorem sameList_iff_and {ts us : List Ty}
    (h : ∀ t ∈ ts, ∀ u, sameBy eq t u = true ↔ sameBy eq' t u = true ∧ P t) :
    sameList eq ts us = true ↔ sameList eq' ts us = true ∧ ∀ t ∈ ts, P t := by
  induction ts generalizing us with
  | nil => cases us <;> simp [sameList]
  | cons t ts ih =>
    cases us with
    | nil => simp [sameList]
    | cons u us =>
      simp only [sameList, Bool.and_eq_true, List.forall_mem_cons, h t (by simp) u,
        ih fun x hx => h x (by simp [hx])]
      exact and_and_and_comm

theorem sameParams_iff_and {ps qs : List (String × Ty)}
    (h : ∀ p ∈ ps, ∀ u, sameBy eq p.2 u = true ↔ sameBy eq' p.2 u = true ∧ P p.2) :
    sameParams eq ps qs = true ↔ sameParams eq' ps qs = true ∧ ∀ p ∈ ps, P p.2 := by
  induction ps generalizing qs with
  | nil => cases qs <;> simp [sameParams]
  | cons p ps ih =>
    cases qs with
    | nil => simp [sameParams]
    | cons q qs =>
      simp only [sameParams, Bool.and_eq_true, List.forall_mem_cons, h p (by simp) q.2,
        ih fun x hx => h x (by simp [hx]), ← and_assoc]
      tauto

end

theorem beq_iff : (t == u) = true ↔ Alike t u ∧ t.NaNFree := by
  change sameBy LiteralValue.same t u = true ↔ sameBy LiteralValue.alike t u = true ∧ t.NaNFree
  induction t generalizing u with
  | unknown | never | param => cases u <;> simp [sameBy, NaNFree, isNaN, parts]
  | literal v b ih =>
    rw [nanFree_iff]
    cases u with
    | literal w c =>
      simp only [sameBy, Bool.and_eq_true, LiteralValue.same_iff, ih, isNaN, components,
        List.forall_mem_singleton]
      exact and_and_and_comm
    | _ => simp [sameBy]
  | union ts ih =>
    rw [nanFree_iff]
    cases u with
    | union us => simp [sameBy, sameList_iff_and fun t ht u => ih t ht, isNaN, components]
    | _ => simp [sameBy]
  | func ps r ihp ihr =>
    rw [nanFree_iff]
    cases u with
    | func qs q =>
      simp only [sameBy, Bool.and_eq_true, sameParams_iff_and fun p hp u => ihp p hp, ihr, isNaN,
        components, List.forall_mem_cons, List.forall_mem_map]
      tauto
    | _ => simp [sameBy]
  | nominal id name args ih =>
    rw [nanFree_iff]
    cases u with
    | nominal id' name' args' =>
      cases args with
      | none => cases args' <;> simp [sameBy, isNaN, components]
      | some ts =>
        cases args' with
        | none => simp [sameBy]
        | some us =>
          simp [sameBy, sameList_iff_and fun t ht u => ih ts rfl t ht, isNaN, components, and_assoc]
    | _ => cases args <;> simp [sameBy]

theorem nanFree_of_alike (h : Alike t u) : t.NaNFree ↔ u.NaNFree := by
  refine h.forall_parts_iff fun t u h => ?_
  cases h.shape with
  | literal hv => simp [isNaN, LiteralValue.isNaN_of_alike hv]
  | _ => rfl

theorem beq_symm (h : (t == u) = true) : (u == t) = true := by
  rw [beq_iff] at h ⊢
  exact ⟨h.1.symm, (nanFree_of_alike h.1).mp h.2⟩

theorem beq_trans {w : Ty} (htu : (t == u) = true) (huw : (u == w) = true) : (t == w) = true := by
  rw [beq_iff] at htu huw ⊢
  exact ⟨htu.1.trans huw.1, htu.2⟩

theorem beq_congr (ht : Alike t t') (hu : Alike u u') : (t == u) = (t' == u') := by
  rw [Bool.eq_iff_iff, beq_iff, beq_iff, nanFree_of_alike ht]
  refine and_congr_left fun _ => ⟨fun h => ?_, fun h => ?_⟩
  · exact (ht.symm.trans h).trans hu
  · exact (ht.trans h).trans hu.symm

/-! ## Building unions -/

theorem isNever_of_alike (h : Alike t u) : t.isNever = u.isNever := by
  cases h.shape <;> rfl

theorem alternatives_alike (h : Alike t u) : List.Forall₂ Alike t.alternatives u.alternatives := by
  cases h.shape with
  | union hts => exact hts
  | _ => exact .cons h .nil

theorem addDistinct_alike {kept kept' : List Ty} (hkept : List.Forall₂ Alike kept kept')
    (h : Alike t u) : List.Forall₂ Alike (addDistinct kept t) (addDistinct kept' u) := by
  have hany : kept.any (· == t) = kept'.any (· == u) := by
    induction hkept with
    | nil => rfl
    | cons hk _ ih => rw [List.any_cons, List.any_cons, beq_congr hk h, ih]
  unfold addDistinct
  rw [hany]
  split
  · exact hkept
  · exact List.rel_append hkept (.cons h .nil)

variable {ts us : List Ty}

theorem exists_mem_foldl_addDistinct {kept : List Ty}
    (h : (∃ k ∈ kept, (k == u) = true) ∨ u ∈ ts ∧ (u == u) = true) :
    ∃ k ∈ ts.foldl addDistinct kept, (k == u) = true := by
  induction ts generalizing kept with
  | nil => simpa using h
  | cons t ts ih =>
    refine ih ?_
    unfold addDistinct
    rcases h with ⟨k, hk, hku⟩ | ⟨hu, hself⟩
    · left
      split
      · exact ⟨k, hk, hku⟩
      · exact ⟨k, List.mem_append_left _ hk, hku⟩
    · rcases List.mem_cons.mp hu with rfl | hu
      · left
        split
        · rename_i hany
          simpa using hany
        · exact ⟨u, by simp, hself⟩
      · exact Or.inr ⟨hu, hself⟩

theorem flatten_alike (h : List.Forall₂ Alike ts us) :
    List.Forall₂ Alike (flatten ts) (flatten us) := by
  have hstep : Relator.LiftFun (List.Forall₂ Alike) (Relator.LiftFun Alike (List.Forall₂ Alike))
      addDistinct addDistinct := fun _ _ hkept _ _ htu => addDistinct_alike hkept htu
  refine List.rel_foldl hstep .nil ?_
  refine List.rel_filter (fun t u htu => ?_) (List.rel_flatMap h fun _ _ => alternatives_alike)
  simp only [isNever_of_alike htu]

theorem unionOf_alike (h : List.Forall₂ Alike ts us) : Alike (unionOf ts) (unionOf us) := by
  unfold unionOf
  match flatten ts, flatten us, flatten_alike h with
  | _, _, .nil => exact .refl _
  | _, _, .cons htu .nil => exact htu
  | _, _, .cons htu (.cons htu' hrest) => exact (AlikeShape.union (.cons htu (.cons htu' hrest))).alike

end Ty

/-! ## Replacing type parameters -/

namespace Substitution

/-- Alike types replace the same parameters. -/
def Alike (s s' : Substitution) : Prop := ∀ name, Option.Rel Ty.Alike (s.get? name) (s'.get? name)

variable {s s' : Substitution}

theorem Alike.insert (h : s.Alike s') {t u : Ty} (htu : Ty.Alike t u) (name : String) :
    Alike (OrderedMap.insert s name t) (OrderedMap.insert s' name u) := by
  intro other
  rw [OrderedMap.get?_insert, OrderedMap.get?_insert]
  split
  · exact .some htu
  · exact h other

theorem Alike.isEmpty (h : s.Alike s') : OrderedMap.isEmpty s = OrderedMap.isEmpty s' := by
  rw [Bool.eq_iff_iff, OrderedMap.isEmpty_iff, OrderedMap.isEmpty_iff]
  refine forall_congr' fun name => ?_
  have hname := h name
  generalize s.get? name = found at hname ⊢
  generalize s'.get? name = found' at hname ⊢
  cases hname <;> simp

theorem ofParams_alike (params : List TypeParam) {args args' : List Ty}
    (h : List.Forall₂ Ty.Alike args args') : (ofParams params args).Alike (ofParams params args') := by
  have hfold : ∀ (names : List String) {s s' : Substitution}, s.Alike s' →
      Alike ((names.zip args).foldl (fun m p => m.insert p.1 p.2) s)
        ((names.zip args').foldl (fun m p => m.insert p.1 p.2) s') := by
    induction h with
    | nil => simp
    | cons htu _ ih =>
      intro names s s' hs
      cases names with
      | nil => simpa using hs
      | cons name names => exact ih names (hs.insert htu name)
  refine hfold _ fun name => ?_
  simp [OrderedMap.get?, OrderedMap.empty, OrderedMap.find]

end Substitution

namespace Ty

variable {t u : Ty} {s s' : Substitution}

theorem replace_alike (hs : s.Alike s') (h : Alike t u) : Alike (t.replace s) (u.replace s') := by
  have hmap : ∀ {ts us : List Ty}, List.Forall₂ Alike ts us →
      (∀ t ∈ ts, ∀ u, Alike t u → Alike (t.replace s) (u.replace s')) →
      List.Forall₂ Alike (ts.map (replace s)) (us.map (replace s')) := by
    intro ts us hts ih
    rw [List.forall₂_map_left_iff, List.forall₂_map_right_iff]
    exact ((List.forall₂_and_left _ _).mpr ⟨ih, hts⟩).imp fun _ u h => h.1 u h.2
  induction t generalizing u with
  | unknown | never =>
    cases h.shape
    exact .refl _
  | literal v b ih =>
    cases h.shape with
    | literal hv hb => exact (AlikeShape.literal hv (ih hb)).alike
  | union ts ih =>
    cases h.shape with
    | union hts =>
      rw [replace, replace, replaceList_eq_map, replaceList_eq_map]
      exact unionOf_alike (hmap hts fun t ht u => ih t ht)
  | func ps r ihp ihr =>
    cases h.shape with
    | func hps hr =>
      rw [replace, replace, replaceParams_eq_map, replaceParams_eq_map]
      refine (AlikeShape.func ?_ (ihr hr)).alike
      rw [List.forall₂_map_left_iff, List.forall₂_map_right_iff]
      have hboth := (List.forall₂_and_left _ _).mpr ⟨fun p hp u => ihp p hp (u := u), hps⟩
      exact hboth.imp fun p q h => ⟨h.2.1, h.1 q.2 h.2.2⟩
  | nominal id name args ih =>
    cases h.shape with
    | bare => exact .refl _
    | bound hts =>
      rw [replace, replace, replaceList_eq_map, replaceList_eq_map]
      exact (AlikeShape.bound (hmap hts fun t ht u => ih _ rfl t ht)).alike
  | param p =>
    cases h.shape
    rw [replace, replace]
    have hp := hs p.name
    generalize s.get? p.name = found at hp ⊢
    generalize s'.get? p.name = found' at hp ⊢
    cases hp with
    | some htu => exact htu
    | none => exact .refl _

theorem instantiate_alike (hs : s.Alike s') (h : Alike t u) :
    Alike (t.instantiate s) (u.instantiate s') := by
  unfold instantiate
  rw [hs.isEmpty]
  split
  · exact h
  · exact replace_alike hs h

end Ty

end ScriptTyping
