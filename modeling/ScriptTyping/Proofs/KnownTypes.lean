import ScriptTyping.Proofs.HereditaryTypes

/-!
# Types without an unknown part

The operations on types make no unknown part of their own.
-/

namespace ScriptTyping

namespace Ty

/-- No part of the type is unknown. -/
def Known (t : Ty) : Prop := t.containsUnknown = false

instance (t : Ty) : Decidable t.Known := inferInstanceAs (Decidable (_ = _))

/-! ## Part by part -/

theorem anyUnknown_iff (ts : List Ty) : anyUnknown ts = false ↔ ∀ t ∈ ts, t.Known := by
  induction ts with
  | nil => simp [anyUnknown]
  | cons t ts ih => simp [anyUnknown, ih, Known]

theorem anyParamUnknown_iff (ps : List (String × Ty)) :
    anyParamUnknown ps = false ↔ ∀ p ∈ ps, p.2.Known := by
  induction ps with
  | nil => simp [anyParamUnknown]
  | cons p ps ih => simp [anyParamUnknown, ih, Known]

@[simp] theorem known_unknown : ¬ Known .unknown := by simp [Known, containsUnknown]

@[simp] theorem known_never : Known .never := rfl

@[simp] theorem known_param (p : TypeParam) : Known (.param p) := rfl

@[simp] theorem known_literal (v : LiteralValue) (backing : Ty) :
    Known (.literal v backing) ↔ backing.Known := Iff.rfl

@[simp] theorem known_union (ts : List Ty) : Known (.union ts) ↔ ∀ t ∈ ts, t.Known :=
  anyUnknown_iff ts

@[simp] theorem known_func (ps : List (String × Ty)) (r : Ty) :
    Known (.func ps r) ↔ (∀ p ∈ ps, p.2.Known) ∧ r.Known := by
  simp [Known, containsUnknown, anyParamUnknown_iff, and_comm]

@[simp] theorem known_nominal (id : DefId) (name : String) (args : Option (List Ty)) :
    Known (.nominal id name args) ↔ ∀ ts, args = some ts → ∀ t ∈ ts, t.Known := by
  cases args with
  | none => simp [Known, containsUnknown]
  | some ts => simp [Known, containsUnknown, anyUnknown_iff]

theorem Known.component {t c : Ty} (h : t.Known) (hc : c ∈ t.components) : c.Known := by
  cases t with
  | literal v backing =>
    rw [List.mem_singleton.mp hc]
    exact h
  | union members => exact (known_union members).mp h c hc
  | func params result =>
    obtain ⟨hparams, hresult⟩ := (known_func params result).mp h
    rcases List.mem_cons.mp hc with rfl | hc
    · exact hresult
    · obtain ⟨p, hp, rfl⟩ := List.mem_map.mp hc
      exact hparams p hp
  | nominal id name args =>
    cases args with
    | none => cases hc
    | some ts => exact (known_nominal id name _).mp h ts rfl c hc
  | _ => cases hc

theorem Known.not_isUnknown {t : Ty} (h : t.Known) : t.isUnknown = false := by
  cases t <;> simp_all [isUnknown]

/-! ## Unions -/

theorem known_of_alike {t u : Ty} (h : Alike t u) : t.Known ↔ u.Known := by
  induction t generalizing u with
  | literal v b ih =>
    cases h.shape with
    | literal _ hb => simpa using ih hb
  | union ts ih =>
    cases h.shape with
    | union hts => simpa using forall_mem_congr hts fun t ht u => ih t ht
  | func ps r ihp ihr =>
    cases h.shape with
    | func hps hr =>
      rw [known_func, known_func, ihr hr, forall_mem_congr hps fun p hp q hpq => ihp p hp hpq.2]
  | nominal id name args ih =>
    cases h.shape with
    | bare => exact Iff.rfl
    | bound hts => simpa using forall_mem_congr hts fun t ht u => ih _ rfl t ht
  | _ =>
    cases h.shape
    exact Iff.rfl

/-- What holds of a union if it holds of all members, and does not tell the same types apart, holds
of what is built from some types if it holds of them. -/
theorem unionOf_iff {P : Ty → Prop} (hsame : ∀ t u : Ty, (t == u) = true → (P t ↔ P u))
    (hnever : P .never) (hunion : ∀ ts, P (.union ts) ↔ ∀ t ∈ ts, P t) (ts : List Ty) :
    P (unionOf ts) ↔ ∀ t ∈ ts, P t := by
  have hfold : ∀ us kept : List Ty,
      (∀ t ∈ us.foldl addDistinct kept, P t) ↔ (∀ t ∈ kept, P t) ∧ ∀ t ∈ us, P t := by
    intro us
    induction us with
    | nil => simp
    | cons t us ih =>
      intro kept
      simp only [List.foldl_cons, ih, List.forall_mem_cons, ← and_assoc]
      refine and_congr_left fun _ => ?_
      unfold addDistinct
      split
      · rename_i hany
        obtain ⟨k, hk, htk⟩ := List.any_eq_true.mp hany
        exact (and_iff_left_of_imp fun hkept => (hsame k t htk).mp (hkept k hk)).symm
      · simp [or_imp, forall_and]
  have hof : ∀ us : List Ty, P (ofAlternatives us) ↔ ∀ u ∈ us, P u := by
    intro us
    match us with
    | [] => simpa [ofAlternatives] using hnever
    | [u] => simp [ofAlternatives]
    | u :: v :: us => exact hunion _
  have hdrop : ∀ us : List Ty, (∀ u ∈ us.filter fun u => !u.isNever, P u) ↔ ∀ u ∈ us, P u := by
    intro us
    refine ⟨fun h u hu => ?_, fun h u hu => h u (List.mem_of_mem_filter hu)⟩
    cases u with
    | never => exact hnever
    | _ => exact h _ (List.mem_filter.mpr ⟨hu, rfl⟩)
  have halternatives : ∀ t : Ty, (∀ a ∈ t.alternatives, P a) ↔ P t := by
    intro t
    cases t with
    | union us => exact (hunion us).symm
    | _ => simp [alternatives]
  unfold unionOf flatten
  rw [hof, hfold, hdrop]
  simp only [List.not_mem_nil, false_implies, implies_true, true_and, List.mem_flatMap]
  constructor
  · intro h t ht
    exact (halternatives t).mp fun a ha => h a ⟨t, ht, ha⟩
  · rintro h a ⟨t, ht, ha⟩
    exact (halternatives t).mpr (h t ht) a ha

@[simp] theorem known_unionOf (ts : List Ty) : (unionOf ts).Known ↔ ∀ t ∈ ts, t.Known :=
  unionOf_iff (fun _ _ h => known_of_alike (alike_of_beq h)) known_never known_union ts

@[simp] theorem known_widen (t : Ty) : t.widen.Known ↔ t.Known := by
  induction t with
  | union ts ih => simp +contextual [widen, widenList_eq_map, ih]
  | _ => simp [widen]

/-! ## Replacing type parameters -/

theorem mem_paramNamesList (ts : List Ty) (name : String) :
    name ∈ paramNamesList ts ↔ ∃ t ∈ ts, name ∈ t.paramNames := by
  induction ts with
  | nil => simp [paramNamesList]
  | cons t ts ih => simp [paramNamesList, ih]

theorem mem_paramNamesParams (ps : List (String × Ty)) (name : String) :
    name ∈ paramNamesParams ps ↔ ∃ p ∈ ps, name ∈ p.2.paramNames := by
  induction ps with
  | nil => simp [paramNamesParams]
  | cons p ps ih => simp [paramNamesParams, ih]

theorem known_replace_each {s : Substitution} {α : Type} {xs : List α} {part : α → Ty}
    (h : ∀ x ∈ xs, ((part x).replace s).Known ↔
      (part x).Known ∧ ∀ name ∈ (part x).paramNames, ∀ u, s.get? name = some u → u.Known) :
    (∀ x ∈ xs, ((part x).replace s).Known) ↔ (∀ x ∈ xs, (part x).Known) ∧
      ∀ name, (∃ x ∈ xs, name ∈ (part x).paramNames) → ∀ u, s.get? name = some u → u.Known := by
  constructor
  · intro hknown
    refine ⟨fun x hx => ((h x hx).mp (hknown x hx)).1, ?_⟩
    rintro name ⟨x, hx, hname⟩
    exact ((h x hx).mp (hknown x hx)).2 name hname
  · rintro ⟨hknown, hnames⟩ x hx
    exact (h x hx).mpr ⟨hknown x hx, fun name hname => hnames name ⟨x, hx, hname⟩⟩

theorem known_replace (s : Substitution) (t : Ty) : (t.replace s).Known ↔
    t.Known ∧ ∀ name ∈ t.paramNames, ∀ u, s.get? name = some u → u.Known := by
  induction t with
  | unknown => simp [replace]
  | never => simp [replace, paramNames]
  | literal v b ih => simpa [replace, paramNames] using ih
  | union ts ih =>
    simp only [replace, replaceList_eq_map, known_unionOf, List.forall_mem_map, known_union,
      paramNames, mem_paramNamesList]
    exact known_replace_each ih
  | func ps r ihp ihr =>
    simp only [replace, replaceParams_eq_map, known_func, List.forall_mem_map, ihr, paramNames,
      List.mem_append, mem_paramNamesParams, or_imp, forall_and]
    rw [known_replace_each ihp]
    exact and_and_and_comm
  | nominal id name args ih =>
    cases args with
    | none => simp [replace, paramNames]
    | some ts =>
      simp only [replace, replaceList_eq_map, known_nominal, Option.some.injEq, forall_eq',
        List.forall_mem_map, paramNames, mem_paramNamesList]
      exact known_replace_each (ih ts rfl)
  | param p =>
    cases hget : s.get? p.name <;> simp [replace, paramNames, hget]

theorem known_instantiate (t : Ty) (s : Substitution) : (t.instantiate s).Known ↔
    t.Known ∧ ∀ name ∈ t.paramNames, ∀ u, s.get? name = some u → u.Known := by
  unfold instantiate
  split
  · rename_i hempty
    have hentries : s.entries = [] := List.isEmpty_iff.mp hempty
    simp [OrderedMap.get?, hentries, OrderedMap.find]
  · exact known_replace s t

end Ty

/-! ## Substitutions -/

namespace Substitution

def Known (s : Substitution) : Prop := ∀ name t, s.get? name = some t → t.Known

theorem known_empty : Known .empty := all_empty

end Substitution

theorem Ty.Known.instantiate {t : Ty} {s : Substitution} (ht : t.Known) (hs : s.Known) :
    (t.instantiate s).Known :=
  (known_instantiate t s).mpr ⟨ht, fun name _ u hu => hs name u hu⟩

end ScriptTyping
