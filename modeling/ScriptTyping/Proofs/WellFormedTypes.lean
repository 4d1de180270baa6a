import ScriptTyping.Narrowing
import ScriptTyping.Proofs.HereditaryTypes

/-!
# Well-formed types

A union is flat, has at least two members, none of them never, and no two of them the same. A
nominal type with arguments has as many as its definition takes. The operations on types make
well-formed types from well-formed ones.
-/

namespace ScriptTyping

namespace Ty

variable {ds : Definitions} {t u c : Ty} {s : Substitution}

def isUnion : Ty → Bool
  | union _ => true
  | _ => false

/-- What is asked of a type itself, whatever stands inside it. -/
def Normal (ds : Definitions) : Ty → Prop
  | union members => 2 ≤ members.length ∧ (∀ m ∈ members, m.isUnion = false ∧ m.isNever = false) ∧
      members.Pairwise fun a b => (a == b) = false
  | nominal id _ (some args) => (ds.get? id).map (·.arity) = some args.length
  | _ => True

instance (ds : Definitions) : DecidablePred (Normal ds)
  | union members => inferInstanceAs (Decidable (2 ≤ members.length ∧
      (∀ m ∈ members, m.isUnion = false ∧ m.isNever = false) ∧
      members.Pairwise fun a b => (a == b) = false))
  | nominal id _ (some args) =>
    inferInstanceAs (Decidable ((ds.get? id).map (·.arity) = some args.length))
  | nominal _ _ none => .isTrue trivial
  | unknown => .isTrue trivial
  | never => .isTrue trivial
  | literal .. => .isTrue trivial
  | func .. => .isTrue trivial
  | param _ => .isTrue trivial

/-- The type and every part of it are normal. -/
def WellFormed (ds : Definitions) (t : Ty) : Prop := ∀ u ∈ t.parts, u.Normal ds

instance (ds : Definitions) : DecidablePred (WellFormed ds) :=
  fun t => inferInstanceAs (Decidable (∀ u ∈ t.parts, u.Normal ds))

/-! ## Part by part -/

theorem wellFormed_iff :
    t.WellFormed ds ↔ t.Normal ds ∧ ∀ c ∈ t.components, c.WellFormed ds :=
  forall_parts_iff

theorem WellFormed.component (h : t.WellFormed ds) (hc : c ∈ t.components) : c.WellFormed ds :=
  (wellFormed_iff.mp h).2 c hc

@[simp] theorem wellFormed_unknown : WellFormed ds .unknown :=
  wellFormed_iff.mpr ⟨trivial, by simp [components]⟩

@[simp] theorem wellFormed_never : WellFormed ds .never :=
  wellFormed_iff.mpr ⟨trivial, by simp [components]⟩

@[simp] theorem wellFormed_param (p : TypeParam) : WellFormed ds (.param p) :=
  wellFormed_iff.mpr ⟨trivial, by simp [components]⟩

@[simp] theorem wellFormed_literal (v : LiteralValue) (backing : Ty) :
    WellFormed ds (.literal v backing) ↔ backing.WellFormed ds := by
  rw [wellFormed_iff]
  simp [Normal, components]

@[simp] theorem wellFormed_func (ps : List (String × Ty)) (r : Ty) :
    WellFormed ds (.func ps r) ↔ (∀ p ∈ ps, p.2.WellFormed ds) ∧ r.WellFormed ds := by
  rw [wellFormed_iff, components, List.forall_mem_cons, List.forall_mem_map]
  simp [Normal, and_comm]

@[simp] theorem wellFormed_bare (id : DefId) (name : String) :
    WellFormed ds (.nominal id name none) :=
  wellFormed_iff.mpr ⟨trivial, by simp [components]⟩

theorem wellFormed_bound (id : DefId) (name : String) (args : List Ty) :
    WellFormed ds (.nominal id name (some args)) ↔
      (ds.get? id).map (·.arity) = some args.length ∧ ∀ t ∈ args, t.WellFormed ds :=
  wellFormed_iff

/-! ## Unions -/

theorem mem_of_mem_foldl_addDistinct {kept ts : List Ty} (h : u ∈ ts.foldl addDistinct kept) :
    u ∈ kept ∨ u ∈ ts := by
  induction ts generalizing kept with
  | nil => exact Or.inl h
  | cons t ts ih =>
    rcases ih h with hu | hu
    · unfold addDistinct at hu
      split at hu
      · exact Or.inl hu
      · exact (List.mem_append.mp hu).imp_right fun hu => by simp [List.mem_singleton.mp hu]
    · exact Or.inr (List.mem_cons_of_mem _ hu)

theorem pairwise_foldl_addDistinct {kept : List Ty} (ts : List Ty)
    (h : kept.Pairwise fun a b => (a == b) = false) :
    (ts.foldl addDistinct kept).Pairwise fun a b => (a == b) = false := by
  induction ts generalizing kept with
  | nil => exact h
  | cons t ts ih =>
    refine ih ?_
    unfold addDistinct
    split
    · exact h
    · rename_i hnew
      rw [Bool.not_eq_true, List.any_eq_false] at hnew
      refine List.pairwise_append.mpr ⟨h, List.pairwise_singleton _ _, fun a ha b hb => ?_⟩
      rw [List.mem_singleton.mp hb]
      exact Bool.not_eq_true _ ▸ hnew a ha

theorem exists_of_mem_flatten {ts : List Ty} (h : u ∈ flatten ts) :
    ∃ t ∈ ts, u ∈ t.alternatives ∧ u.isNever = false := by
  rcases mem_of_mem_foldl_addDistinct h with hu | hu
  · cases hu
  · obtain ⟨hu, hnever⟩ := List.mem_filter.mp hu
    obtain ⟨t, ht, hu⟩ := List.mem_flatMap.mp hu
    exact ⟨t, ht, hu, by simpa using hnever⟩

theorem unionOf_cases {P : Ty → Prop} {ts : List Ty} (never : P .never)
    (single : ∀ u ∈ flatten ts, P u)
    (several : 2 ≤ (flatten ts).length → P (.union (flatten ts))) : P (unionOf ts) := by
  unfold unionOf
  match hflat : flatten ts with
  | [] => exact never
  | [u] => exact single u (by simp [hflat])
  | u :: v :: us =>
    rw [hflat] at several
    exact several (by simp)

theorem mem_parts_of_alternative {a : Ty} (ha : a ∈ t.alternatives) (hu : u ∈ a.parts) :
    u ∈ t.parts := by
  cases t with
  | union members =>
    rw [parts_eq, List.mem_cons, List.mem_flatMap]
    exact Or.inr ⟨a, ha, hu⟩
  | _ => rwa [← List.mem_singleton.mp ha]

theorem forall_parts_unionOf {P : Ty → Prop} {ts : List Ty} (never : P .never)
    (several : 2 ≤ (flatten ts).length → P (.union (flatten ts)))
    (h : ∀ t ∈ ts, ∀ u ∈ t.parts, P u) : ∀ u ∈ (unionOf ts).parts, P u := by
  have hflat : ∀ a ∈ flatten ts, ∀ u ∈ a.parts, P u := by
    intro a ha u hu
    obtain ⟨t, ht, hta, -⟩ := exists_of_mem_flatten ha
    exact h t ht u (mem_parts_of_alternative hta hu)
  refine unionOf_cases (P := fun t => ∀ u ∈ t.parts, P u) (by simpa [parts] using never) hflat ?_
  exact fun hlen => forall_parts_iff.mpr ⟨several hlen, hflat⟩

theorem WellFormed.alternative (h : t.WellFormed ds) (hu : u ∈ t.alternatives) :
    u.WellFormed ds ∧ u.isUnion = false := by
  cases t with
  | union members =>
    obtain ⟨⟨-, hflat, -⟩, hmembers⟩ := wellFormed_iff.mp h
    exact ⟨hmembers u hu, (hflat u hu).1⟩
  | _ =>
    rw [List.mem_singleton.mp hu]
    exact ⟨h, rfl⟩

theorem wellFormed_unionOf {ts : List Ty} (h : ∀ t ∈ ts, t.WellFormed ds) :
    (unionOf ts).WellFormed ds := by
  refine forall_parts_unionOf trivial
    (fun hlen => ⟨hlen, fun u hu => ?_, pairwise_foldl_addDistinct _ .nil⟩) h
  obtain ⟨t, ht, hta, hnever⟩ := exists_of_mem_flatten hu
  exact ⟨((h t ht).alternative hta).2, hnever⟩

theorem WellFormed.widen (h : t.WellFormed ds) : t.widen.WellFormed ds := by
  induction t with
  | literal v backing => exact (wellFormed_literal v backing).mp h
  | union members ih =>
    rw [Ty.widen, widenList_eq_map]
    refine wellFormed_unionOf fun u hu => ?_
    obtain ⟨m, hm, rfl⟩ := List.mem_map.mp hu
    exact ih m hm (h.component hm)
  | _ => exact h

/-! ## Replacing type parameters -/

theorem components_replace (s : Substitution) (hparam : ∀ p, t ≠ .param p)
    (hunion : ∀ ts, t ≠ .union ts) : (t.replace s).components = t.components.map (replace s) := by
  cases t with
  | param p => exact absurd rfl (hparam p)
  | union ts => exact absurd rfl (hunion ts)
  | nominal id name args => cases args <;> simp [replace, components, replaceList_eq_map]
  | _ => simp [replace, components, replaceParams_eq_map, Function.comp_def]

theorem forall_parts_replace {P Q : Ty → Prop} (h : ∀ u ∈ t.parts, P u)
    (hs : s.All fun t => ∀ u ∈ t.parts, Q u) (param : ∀ p, Q (.param p))
    (union : ∀ ts, (∀ t ∈ ts, ∀ u ∈ t.parts, Q u) → ∀ u ∈ (unionOf ts).parts, Q u)
    (other : ∀ u, P u → (∀ p, u ≠ .param p) → (∀ ts, u ≠ .union ts) → Q (u.replace s)) :
    ∀ u ∈ (t.replace s).parts, Q u := by
  induction t using induct_components with
  | step t ih =>
    obtain ⟨htop, hparts⟩ := forall_parts_iff.mp h
    have hother : (∀ p, t ≠ .param p) → (∀ ts, t ≠ .union ts) → ∀ u ∈ (t.replace s).parts, Q u := by
      intro hparam hunion
      rw [forall_parts_iff, components_replace s hparam hunion, List.forall_mem_map]
      exact ⟨other t htop hparam hunion, fun c hc => ih c hc (hparts c hc)⟩
    cases t with
    | param p =>
      rw [replace]
      cases hget : s.get? p.name with
      | none => simpa [parts] using param p
      | some u => exact hs p.name u hget
    | union ts =>
      rw [replace, replaceList_eq_map]
      exact union _ (List.forall_mem_map.mpr fun m hm => ih m hm (hparts m hm))
    | _ => exact hother (by simp) (by simp)

theorem WellFormed.replace (h : t.WellFormed ds) (hs : s.All (WellFormed ds)) :
    (t.replace s).WellFormed ds := by
  refine forall_parts_replace h hs (fun _ => trivial) (fun _ => wellFormed_unionOf) ?_
  intro u hu hparam hunion
  cases u with
  | param p => exact absurd rfl (hparam p)
  | union ts => exact absurd rfl (hunion ts)
  | nominal id name args =>
    cases args with
    | none => exact hu
    | some ts => rwa [Ty.replace, replaceList_eq_map, Normal, List.length_map]
  | _ => trivial

theorem WellFormed.instantiate (h : t.WellFormed ds) (hs : s.All (WellFormed ds)) :
    (t.instantiate s).WellFormed ds := by
  unfold Ty.instantiate
  split
  · exact h
  · exact h.replace hs

/-! ## Built-in types -/

theorem wellFormed_ofConstant (value : Constant) : (ofConstant value).WellFormed ds := by
  cases value with
  | null => exact wellFormed_bare _ _
  | value v => cases v <;> exact (wellFormed_literal _ _).mpr (wellFormed_bare _ _)

theorem WellFormed.listElement (h : t.WellFormed ds) (hu : t.listElement? = some u) :
    u.WellFormed ds := by
  unfold listElement? at hu
  split at hu
  · exact h.component (List.mem_of_head? hu)
  · cases hu

end Ty

/-! ## Definitions -/

namespace Definitions

/-- Definitions that a host has registered beside the built-in ones. -/
inductive Registered : Definitions → Prop
  | builtin : Registered .builtin
  | reserve {ds : Definitions} (h : Registered ds) (name : String) (params : List TypeParam) :
      Registered (ds.reserve name params)
  | define {ds : Definitions} (h : Registered ds) (id : DefId) (base : Option Ty)
      (members : List Member) : Registered (ds.define id base members)

theorem arity_define (ds : Definitions) (id : DefId) (base : Option Ty) (members : List Member)
    (other : DefId) :
    ((ds.define id base members).get? other).map (·.arity) = (ds.get? other).map (·.arity) := by
  unfold define
  split
  · rfl
  · rename_i d hd
    simp only [get?, Array.getElem?_setIfInBounds]
    split
    · rename_i heq
      subst heq
      rw [show ds.defs[id]? = some d from hd]
      split
      · rfl
      · rename_i hge
        simp [get?, Array.getElem?_eq_none (Nat.le_of_not_lt hge)] at hd
    · rfl

theorem Registered.arity_builtin {ds : Definitions} (h : ds.Registered) {id : DefId} {d : Definition}
    (hd : Definitions.builtin.get? id = some d) : (ds.get? id).map (·.arity) = some d.arity := by
  induction h with
  | builtin => rw [hd, Option.map_some]
  | @reserve ds _ name params ih =>
    obtain ⟨d', hd', harity⟩ := Option.map_eq_some_iff.mp ih
    have hlt : id < ds.defs.size := (Array.getElem?_eq_some_iff.mp hd').choose
    rw [← ih]
    simp only [get?, Definitions.reserve, Array.getElem?_push_lt hlt, Array.getElem?_eq_getElem hlt]
  | define _ id' base members ih => rw [arity_define, ih]

theorem Registered.list {ds : Definitions} (h : ds.Registered) :
    (Ty.listOf .unknown).WellFormed ds := by
  refine (Ty.wellFormed_bound _ _ _).mpr ⟨?_, by simp⟩
  exact h.arity_builtin (show Definitions.builtin.get? 4 = some _ from rfl)

variable {ds : Definitions} {t u : Ty}

/-- Bases and members are well formed. -/
def WellFormed (ds : Definitions) : Prop :=
  ∀ d ∈ ds.defs.toList, (∀ b ∈ d.base, b.WellFormed ds) ∧ ∀ m ∈ d.members, m.ty.WellFormed ds

instance (ds : Definitions) : Decidable ds.WellFormed :=
  inferInstanceAs (Decidable (∀ d ∈ ds.defs.toList, _))

theorem wellFormed_commonSupertype (ht : t.WellFormed ds) (hu : u.WellFormed ds) :
    (ds.commonSupertype t u).WellFormed ds := by
  unfold commonSupertype
  split
  · exact Ty.wellFormed_unknown
  · split
    · exact hu
    · split
      · exact ht
      · exact Ty.wellFormed_unionOf (by simp [ht, hu])

theorem wellFormed_narrow (ht : t.WellFormed ds) (hu : u.WellFormed ds) :
    (ds.narrow t u).WellFormed ds := by
  -- Before the members of a union are looked at, one of the two types may be the answer.
  have hnarrow : ∀ {u rest : Ty}, u.WellFormed ds → rest.WellFormed ds →
      (if u.isUnknown then t else if t.isUnknown then u else if ds.isAssignable u t then u
        else if ds.isAssignable t u then t else rest).WellFormed ds := by
    intro u rest hu hrest
    split
    · exact ht
    · split
      · exact hu
      · split
        · exact hu
        · split
          · exact ht
          · exact hrest
  induction u with
  | union members ih =>
    unfold narrow
    refine hnarrow hu (Ty.wellFormed_unionOf fun v hv => ?_)
    rw [narrowEach_eq_map] at hv
    obtain ⟨m, hm, rfl⟩ := List.mem_map.mp (List.mem_of_mem_filter hv)
    exact ih m hm (hu.component hm)
  | _ =>
    unfold narrow
    exact hnarrow hu Ty.wellFormed_never

theorem wellFormed_bind {ts : List Ty} (hts : ∀ t ∈ ts, t.WellFormed ds)
    (h : ds.bind u ts = .ok t) : t.WellFormed ds := by
  obtain ⟨id, name, d, -, hd, -, harity, rfl⟩ := bind_eq_ok h
  refine (Ty.wellFormed_bound _ _ _).mpr ⟨?_, hts⟩
  rw [hd, Option.map_some, harity]

theorem WellFormed.hereditary (h : ds.WellFormed) : ds.Hereditary (Ty.WellFormed ds) := by
  have hget : ∀ {id d}, ds.get? id = some d →
      (∀ b ∈ d.base, b.WellFormed ds) ∧ ∀ m ∈ d.members, m.ty.WellFormed ds :=
    fun hd => h _ (Array.mem_toList_iff.mpr (Array.mem_of_getElem? hd))
  exact ⟨Ty.WellFormed.component, Ty.WellFormed.instantiate, wellFormed_commonSupertype,
    fun hd hb => (hget hd).1 _ hb, fun hd hm => (hget hd).2 _ hm⟩

end Definitions

end ScriptTyping
