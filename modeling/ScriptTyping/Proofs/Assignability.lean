import ScriptTyping.Assignable.Basic
import ScriptTyping.Proofs.ArgumentFreeBases
import ScriptTyping.Proofs.PlainDefinitions

/-!
# Assignability without a limit

If bases have no type arguments, a step of the relation asks about lower types only. So every question
about two types is answered within as many steps as the types are high together. From there on the
limit has no say, and the relation solves its own equation. It does not tell alike types apart.
-/

namespace ScriptTyping.Definitions

open Ty (Alike)

variable {ds : Definitions} {s t s' t' : Ty} {check check' : Ty → Ty → Bool}

/-! ## A step looks at parts -/

/-- The two checks answer the same about alike parts of `s` and `t`, and of `s'` and `t'`. -/
def AgreeBelow (check check' : Ty → Ty → Bool) (s t s' t' : Ty) : Prop :=
  ∀ u v u' v', Alike u u' → Alike v v' → u.height + v.height < s.height + t.height →
    u'.height + v'.height < s'.height + t'.height → check u v = check' u' v'

theorem all_congr {α β : Type} {R : α → β → Prop} {f : α → Bool} {g : β → Bool} {xs : List α}
    {ys : List β} (h : List.Forall₂ R xs ys) (hfg : ∀ x ∈ xs, ∀ y ∈ ys, R x y → f x = g y) :
    xs.all f = ys.all g ∧ xs.any f = ys.any g := by
  induction h with
  | nil => simp
  | @cons x y xs ys hxy _ ih =>
    have hhead := hfg x (by simp) y (by simp) hxy
    have hrest := ih fun a ha b hb => hfg a (by simp [ha]) b (by simp [hb])
    simp [hhead, hrest]

theorem all_zip_congr {α β : Type} {R : α → β → Prop} {f : α × α → Bool} {g : β × β → Bool}
    {xs xs' : List α} {ys ys' : List β} (h : List.Forall₂ R xs ys) (h' : List.Forall₂ R xs' ys')
    (hfg : ∀ x ∈ xs, ∀ y ∈ ys, ∀ x' ∈ xs', ∀ y' ∈ ys', R x y → R x' y' → f (x, x') = g (y, y')) :
    (xs.zip xs').all f = (ys.zip ys').all g := by
  induction h generalizing xs' ys' with
  | nil => simp
  | @cons x y xs ys hxy _ ih =>
    cases h' with
    | nil => simp
    | @cons x' y' xs' ys' hxy' h' =>
      have hhead := hfg x (by simp) y (by simp) x' (by simp) y' (by simp) hxy hxy'
      have hrest := ih h' fun a ha b hb c hc d hd =>
        hfg a (by simp [ha]) b (by simp [hb]) c (by simp [hc]) d (by simp [hd])
      simp [hhead, hrest]

theorem relatesArgs_alike {vs : List Variance} {ss ts ss' ts' : List Ty}
    (hs : List.Forall₂ Alike ss ss') (ht : List.Forall₂ Alike ts ts')
    (hcheck : ∀ u ∈ ss, ∀ v ∈ ts, ∀ u' ∈ ss', ∀ v' ∈ ts', Alike u u' → Alike v v' →
      check u v = check' u' v' ∧ check v u = check' v' u') :
    relatesArgs check vs ss ts = relatesArgs check' vs ss' ts' := by
  induction hs generalizing vs ts ts' with
  | nil => simp [relatesArgs]
  | @cons u u' ss ss' hu _ ih =>
    cases ht with
    | nil => simp [relatesArgs]
    | @cons v v' ts ts' hv ht =>
      obtain ⟨huv, hvu⟩ := hcheck u (by simp) v (by simp) u' (by simp) v' (by simp) hu hv
      have hrest := @ih vs.tail ts ts' ht fun a ha b hb c hc d hd =>
        hcheck a (by simp [ha]) b (by simp [hb]) c (by simp [hc]) d (by simp [hd])
      rw [relatesArgs, relatesArgs, hrest]
      cases vs.headD .invariant <;> simp [relatesArg, huv, hvu]

namespace AgreeBelow

variable {ts us : List Ty}

theorem all_members (h : AgreeBelow check check' (.union ts) t (.union us) t')
    (hts : List.Forall₂ Alike ts us) (ht : Alike t t') :
    (ts.all fun m => check m t) = us.all fun m => check' m t' := by
  refine (all_congr hts fun x hx y hy hxy => h x t y t' hxy ht ?_ ?_).1
  · have := Ty.height_lt_of_component (t := .union ts) hx
    omega
  · have := Ty.height_lt_of_component (t := .union us) hy
    omega

theorem any_member (h : AgreeBelow check check' s (.union ts) s' (.union us))
    (hs : Alike s s') (hts : List.Forall₂ Alike ts us) :
    (ts.any fun m => check s m) = us.any fun m => check' s' m := by
  refine (all_congr hts fun x hx y hy hxy => h s x s' y hs hxy ?_ ?_).2
  · have := Ty.height_lt_of_component (t := .union ts) hx
    omega
  · have := Ty.height_lt_of_component (t := .union us) hy
    omega

theorem components (h : AgreeBelow check check' s t s' t') {u v u' v' : Ty}
    (hu : u ∈ s.components) (hv : v ∈ t.components) (hu' : u' ∈ s'.components)
    (hv' : v' ∈ t'.components) (huu' : Alike u u') (hvv' : Alike v v') :
    check u v = check' u' v' ∧ check v u = check' v' u' := by
  have h1 := Ty.height_lt_of_component hu
  have h2 := Ty.height_lt_of_component hv
  have h3 := Ty.height_lt_of_component hu'
  have h4 := Ty.height_lt_of_component hv'
  exact ⟨h u v u' v' huu' hvv' (by omega) (by omega), h v u v' u' hvv' huu' (by omega) (by omega)⟩

end AgreeBelow

namespace ArgumentFreeBases

variable (h : ds.ArgumentFreeBases)

include h

theorem relatesNominal_alike {id : DefId} {name : String} {args args' : Option (List Ty)}
    (hs : Alike s s') (ht : Alike (.nominal id name args) (.nominal id name args'))
    (hcheck : AgreeBelow check check' s (.nominal id name args) s' (.nominal id name args')) :
    ds.relatesNominal check s id name args = ds.relatesNominal check' s' id name args' := by
  have hancestors := ds.ancestorArgs?_alike hs name
  unfold relatesNominal
  generalize hfound : ds.ancestorArgs? name s = found at hancestors ⊢
  generalize hfound' : ds.ancestorArgs? name s' = found' at hancestors ⊢
  cases hancestors with
  | none => rfl
  | some hargs =>
    cases ht.shape with
    | bare => cases hargs <;> rfl
    | @bound _ _ ts ts' hts =>
      cases hargs with
      | none => rfl
      | some hss =>
        simp only [hss.length_eq, hts.length_eq]
        refine congrArg _ (relatesArgs_alike hss hts fun u hu v hv u' hu' v' hv' huu' hvv' => ?_)
        have hlt := h.ancestorArgs_lt hfound u hu
        have hlt' := h.ancestorArgs_lt hfound' u' hu'
        have hlow := Ty.height_lt_of_component (t := .nominal id name (some ts)) hv
        have hlow' := Ty.height_lt_of_component (t := .nominal id name (some ts')) hv'
        exact ⟨hcheck u v u' v' huu' hvv' (by omega) (by omega),
          hcheck v u v' u' hvv' huu' (by omega) (by omega)⟩

theorem relates_alike (hs : Alike s s') (ht : Alike t t')
    (hcheck : AgreeBelow check check' s t s' t') :
    ds.relates check s t = ds.relates check' s' t' := by
  cases hs.shape with
  | never => simp [relates]
  | unknown => cases ht.shape <;> simp [relates]
  | union hms =>
    cases ht.shape with
    | never | unknown => simp [relates]
    | _ => exact hcheck.all_members hms ht
  | literal hv hb =>
    cases ht.shape with
    | union hms => exact hcheck.any_member hs hms
    | bare =>
      refine hcheck _ _ _ _ hb ht ?_ ?_ <;> simp [Ty.height]
    | bound hts => refine hcheck _ _ _ _ hb ht ?_ ?_ <;> simp [Ty.height]
    | literal hw => exact LiteralValue.same_congr hv hw
    | _ => simp [relates]
  | func hps hr =>
    cases ht.shape with
    | union hms => exact hcheck.any_member hs hms
    | @func qs qs' q q' hqs hq =>
      have hresult := (hcheck.components (.head _) (.head _) (.head _) (.head _) hr hq).1
      rw [relates, relates, hresult, hps.length_eq, hqs.length_eq]
      refine congrArg _ (all_zip_congr hps hqs fun p hp p' hp' q hq q' hq' hpp' hqq' => ?_)
      exact (hcheck.components (.tail _ (List.mem_map_of_mem hp)) (.tail _ (List.mem_map_of_mem hq))
        (.tail _ (List.mem_map_of_mem hp')) (.tail _ (List.mem_map_of_mem hq')) hpp'.2 hqq'.2).2
    | _ => simp [relates]
  | bare | bound =>
    cases ht.shape with
    | union hms => exact hcheck.any_member hs hms
    | bare | bound => exact h.relatesNominal_alike hs ht hcheck
    | _ => simp [relates]
  | param =>
    cases ht.shape with
    | union hms => exact hcheck.any_member hs hms
    | _ => simp [relates]

/-! ## The relation without a limit -/

/-- With enough steps the limit has no say, and alike types are not told apart. -/
theorem assignableWithin_alike {m n : Nat} (hs : Alike s s') (ht : Alike t t')
    (hm : s.height + t.height ≤ m) (hn : s'.height + t'.height ≤ n) :
    ds.assignableWithin m s t = ds.assignableWithin n s' t' := by
  -- Types have a positive height, so neither side runs out of steps first.
  induction m generalizing n s t s' t' with
  | zero =>
    have := s.height_pos
    omega
  | succ m ih =>
    obtain ⟨n, rfl⟩ : ∃ k, n = k + 1 := by
      have := s'.height_pos
      exact ⟨n - 1, by omega⟩
    rw [assignableWithin, assignableWithin]
    apply h.relates_alike hs ht
    intro u v u' v' hu hv hlt hlt'
    exact ih hu hv (by omega) (by omega)

end ArgumentFreeBases

/-- Assignability with as many nested steps as the two types can ask for. -/
def relatesFully (ds : Definitions) (source target : Ty) : Bool :=
  ds.assignableWithin (source.height + target.height) source target

namespace ArgumentFreeBases

variable (h : ds.ArgumentFreeBases)

include h

theorem relatesFully_congr (hs : Alike s s') (ht : Alike t t') :
    ds.relatesFully s t = ds.relatesFully s' t' :=
  h.assignableWithin_alike hs ht (Nat.le_refl _) (Nat.le_refl _)

theorem isAssignable_eq (hle : s.height + t.height ≤ maxRelationDepth) :
    ds.isAssignable s t = ds.relatesFully s t :=
  h.assignableWithin_alike (.refl s) (.refl t) hle (Nat.le_refl _)

theorem relatesFully_eq (s t : Ty) : ds.relatesFully s t = ds.relates ds.relatesFully s t := by
  have hstep : ds.relatesFully s t =
      ds.assignableWithin (s.height + t.height + 1) s t :=
    h.assignableWithin_alike (.refl s) (.refl t) (Nat.le_refl _) (by omega)
  rw [hstep, assignableWithin]
  apply h.relates_alike (.refl s) (.refl t)
  intro u v u' v' hu hv hlt _
  exact h.assignableWithin_alike hu hv (by omega) (Nat.le_refl _)

end ArgumentFreeBases

/-! ## Plain definitions -/

/-- A type named `name` is one named `name'`, or inherits from one. -/
def Inherits (ds : Definitions) (id : DefId) (name name' : String) : Prop :=
  name = name' ∨ ∃ e ∈ ds.ancestors maxBaseLinks id, ds.nameOf? e = some name'

namespace Plain

variable (h : ds.Plain)

include h

theorem argumentFreeBases : ds.ArgumentFreeBases := by
  intro d hd b hb
  have hplain := h.bases d hd
  rw [hb, Option.all_some] at hplain
  unfold isPlainBase at hplain
  split at hplain
  · simp [Ty.ArgumentFree, Ty.parts, Ty.isBound]
  · cases hplain

theorem relatesFully_congr (hs : Alike s s') (ht : Alike t t') :
    ds.relatesFully s t = ds.relatesFully s' t' :=
  h.argumentFreeBases.relatesFully_congr hs ht

theorem isAssignable_eq (hle : s.height + t.height ≤ maxRelationDepth) :
    ds.isAssignable s t = ds.relatesFully s t :=
  h.argumentFreeBases.isAssignable_eq hle

theorem relatesFully_eq (s t : Ty) : ds.relatesFully s t = ds.relates ds.relatesFully s t :=
  h.argumentFreeBases.relatesFully_eq s t

/-- Arguments are compared only where the names are equal: a base has none. -/
theorem relatesNominal_iff {id id' : DefId} {name name' : String} {args args' : Option (List Ty)} :
    ds.relatesNominal check (.nominal id name args) id' name' args' = true ↔
      (args' = none ∧ ds.Inherits id name name') ∨
      (name = name' ∧ ∃ ss ts, args = some ss ∧ args' = some ts ∧ ss.length = ts.length ∧
        relatesArgs check (ds.variances id') ss ts = true) := by
  unfold relatesNominal Inherits
  cases hfound : ds.ancestorArgs? name' (.nominal id name args) with
  | none =>
    have hne : name ≠ name' := by
      rintro rfl
      simp [h.ancestorArgs?_eq_some.mpr (Or.inl ⟨rfl, rfl⟩)] at hfound
    have hnone : ¬∃ e ∈ ds.ancestors maxBaseLinks id, ds.nameOf? e = some name' := by
      intro hinherits
      simp [h.ancestorArgs?_eq_some.mpr (Or.inr ⟨hne, rfl, hinherits⟩)] at hfound
    simp [hne, hnone]
  | some found =>
    rcases h.ancestorArgs?_eq_some.mp hfound with ⟨rfl, rfl⟩ | ⟨hne, rfl, hinherits⟩
    · cases args' <;> cases found <;> simp
    · cases args' <;> simp [hne, hinherits]

end Plain

end ScriptTyping.Definitions
