import Mathlib.Data.List.Nodup
import ScriptTyping.Definitions.Generic
import ScriptTyping.Proofs.TypeParts

/-!
# Plain definitions

Definitions with names of their own, whose chains of bases are followed to their end. Whom a type
inherits from then depends on its definition alone; if bases take no arguments, so does what it
inherits.
-/

namespace ScriptTyping.Definitions

variable {ds : Definitions} {d d' : Definition} {id e : DefId} {name : String}

/-! ## Chains of bases -/

/-- The definition that a definition directly inherits from. -/
def baseId? (ds : Definitions) (id : DefId) : Option DefId :=
  match (ds.get? id).bind (·.base) with
  | some (.nominal base _ _) => some base
  | _ => none

/-- What a definition inherits from, nearest first, over at most `links` links. -/
def ancestors (ds : Definitions) : Nat → DefId → List DefId
  | 0, _ => []
  | links + 1, id =>
    match ds.baseId? id with
    | none => []
    | some base => base :: ds.ancestors links base

def nameOf? (ds : Definitions) (id : DefId) : Option String := (ds.get? id).map (·.name)

/-- A base is a nominal type with the name of its definition. -/
def isNamedBase (ds : Definitions) : Ty → Bool
  | .nominal id name _ => ds.nameOf? id == some name
  | _ => false

/-- A base is named, and has no arguments. -/
def isPlainBase (ds : Definitions) : Ty → Bool
  | .nominal id name none => ds.nameOf? id == some name
  | _ => false

/-- Definitions that can be told by their names, with chains of bases that end. -/
structure Hierarchy (ds : Definitions) : Prop where
  names : (ds.defs.toList.map (·.name)).Nodup
  bases : ∀ d ∈ ds.defs.toList, d.base.all ds.isNamedBase = true
  /-- One link more than is ever followed finds nothing more. -/
  ends : ∀ id < ds.size, (ds.ancestors (maxBaseLinks + 1) id).length ≤ maxBaseLinks

structure Plain (ds : Definitions) : Prop where
  names : (ds.defs.toList.map (·.name)).Nodup
  bases : ∀ d ∈ ds.defs.toList, d.base.all ds.isPlainBase = true
  /-- One link more than is ever followed finds nothing more. -/
  ends : ∀ id < ds.size, (ds.ancestors (maxBaseLinks + 1) id).length ≤ maxBaseLinks

theorem get?_lt (h : ds.get? id = some d) : id < ds.size :=
  (Array.getElem?_eq_some_iff.mp h).choose

theorem ancestors_take (ds : Definitions) (links : Nat) (id : DefId) :
    ds.ancestors links id = (ds.ancestors (links + 1) id).take links := by
  induction links generalizing id with
  | zero => rfl
  | succ links ih =>
    conv => rhs; rw [ancestors]
    rw [ancestors]
    cases ds.baseId? id with
    | none => rfl
    | some base => rw [List.take_succ_cons, ← ih base]

theorem ancestors_chain {links : Nat} {f : DefId} (he : e ∈ ds.ancestors links id)
    (hf : f ∈ ds.ancestors links id) :
    e = f ∨ f ∈ ds.ancestors links e ∨ e ∈ ds.ancestors links f := by
  have hmore : ∀ {links i j}, j ∈ ds.ancestors links i → j ∈ ds.ancestors (links + 1) i := by
    intro links i j hj
    rw [ancestors_take] at hj
    exact List.mem_of_mem_take hj
  induction links generalizing id with
  | zero => cases he
  | succ links ih =>
    rw [ancestors] at he hf
    cases hbase : ds.baseId? id with
    | none => simp [hbase] at he
    | some base =>
      simp only [hbase, List.mem_cons] at he hf
      rcases he with rfl | he <;> rcases hf with rfl | hf
      · exact Or.inl rfl
      · exact Or.inr (Or.inl (hmore hf))
      · exact Or.inr (Or.inr (hmore he))
      · exact (ih he hf).imp_right (Or.imp hmore hmore)

/-! ## Bases with arguments -/

namespace Hierarchy

variable (h : ds.Hierarchy)

include h

theorem eq_of_nameOf (hid : ds.nameOf? id = some name) (he : ds.nameOf? e = some name) :
    id = e := by
  obtain ⟨d, hd, hname⟩ := Option.map_eq_some_iff.mp hid
  obtain ⟨d', hd', hname'⟩ := Option.map_eq_some_iff.mp he
  have hlt : id < (ds.defs.toList.map (·.name)).length := by simpa [size] using get?_lt hd
  simp only [get?, ← Array.getElem?_toList] at hd hd'
  exact (List.getElem?_inj hlt h.names).mp (by simp [List.getElem?_map, hd, hd', hname, hname'])

theorem baseOf_cases (id : DefId) (args : Option (List Ty)) :
    (ds.baseOf id args = none ∧ ds.baseId? id = none) ∨
    ∃ e n as, ds.baseOf id args = some (.nominal e n as) ∧ ds.baseId? id = some e ∧
      ds.nameOf? e = some n := by
  unfold baseOf baseId?
  cases hd : ds.get? id with
  | none => simp
  | some d =>
    have hnamed := h.bases d (by simpa using Array.mem_of_getElem? hd)
    cases hbase : d.base with
    | none => simp [hbase]
    | some base =>
      rw [hbase, Option.all_some] at hnamed
      unfold isNamedBase at hnamed
      split at hnamed
      · rename_i e n as
        have hnominal : ∀ s, ∃ bs, (Ty.nominal e n as).instantiate s = .nominal e n bs := by
          intro s
          unfold Ty.instantiate
          cases as <;> split <;> exact ⟨_, rfl⟩
        obtain ⟨bs, hbs⟩ := hnominal (ds.argSubstitution id args)
        exact Or.inr ⟨e, n, bs, by simp [hbase, hbs], by simp [hbase], beq_iff_eq.mp hnamed⟩
      · cases hnamed

theorem ancestors_succ (hid : id < ds.size) :
    ds.ancestors (maxBaseLinks + 1) id = ds.ancestors maxBaseLinks id := by
  rw [ancestors_take ds maxBaseLinks id, List.take_of_length_le (h.ends id hid)]

theorem ancestors_trans (hid : id < ds.size) {f : DefId} (he : e ∈ ds.ancestors maxBaseLinks id)
    (hf : f ∈ ds.ancestors maxBaseLinks e) : f ∈ ds.ancestors maxBaseLinks id := by
  induction hn : (ds.ancestors maxBaseLinks id).length generalizing id with
  | zero => simp [List.length_eq_zero_iff.mp hn] at he
  | succ n ih =>
    have hcons := h.ancestors_succ hid
    rw [ancestors] at hcons
    rcases h.baseOf_cases id none with ⟨-, hnone⟩ | ⟨b, m, as, -, hb, hname⟩
    · rw [hnone] at hcons
      simp [← hcons] at hn
    · obtain ⟨d, hd, -⟩ := Option.map_eq_some_iff.mp hname
      rw [hb] at hcons
      rw [← hcons, List.length_cons] at hn
      rw [← hcons, List.mem_cons] at he ⊢
      rcases he with rfl | he
      · exact Or.inr hf
      · exact Or.inr (ih (get?_lt hd) he (by omega))

theorem isSome_ascend {β : Type} {look : DefId → String → Option (List Ty) → Option β}
    {has : DefId → Prop} {links : Nat} {n : String} {args : Option (List Ty)}
    (hlook : ∀ id n args, ds.nameOf? id = some n → ((look id n args).isSome = true ↔ has id))
    (hn : ds.nameOf? id = some n) :
    (ds.ascend look (links + 1) (.nominal id n args)).isSome = true ↔
      ∃ e ∈ id :: ds.ancestors links id, has e := by
  induction links generalizing id n args with
  | zero =>
    have hself := hlook id n args hn
    rw [ascend]
    cases hfound : look id n args with
    | some found => simpa [hfound, ancestors] using hself
    | none =>
      rw [hfound] at hself
      cases ds.baseOf id args <;> simpa [ascend, ancestors] using hself
  | succ links ih =>
    have hself := hlook id n args hn
    rw [ascend, ancestors, List.exists_mem_cons_iff, ← hself]
    cases hfound : look id n args with
    | some found => simp
    | none =>
      rcases h.baseOf_cases id args with ⟨hnone, hb⟩ | ⟨b, m, as, hsome, hb, hm⟩
      · simp [hnone, hb]
      · simpa [hsome, hb] using ih hm

end Hierarchy

/-! ## Bases without arguments -/

namespace Plain

variable (h : ds.Plain)

include h

theorem hierarchy : ds.Hierarchy where
  names := h.names
  bases d hd := by
    have hplain := h.bases d hd
    cases hbase : d.base with
    | none => rfl
    | some base =>
      rw [hbase, Option.all_some] at hplain
      unfold isPlainBase at hplain
      split at hplain
      · exact hplain
      · cases hplain
  ends := h.ends

theorem baseOf_cases (id : DefId) (args : Option (List Ty)) :
    (ds.baseOf id args = none ∧ ds.baseId? id = none) ∨
    ∃ e d, ds.baseOf id args = some (.nominal e d.name none) ∧ ds.baseId? id = some e ∧
      ds.get? e = some d := by
  unfold baseOf baseId?
  cases hd : ds.get? id with
  | none => simp
  | some d =>
    have hplain := h.bases d (by simpa using Array.mem_of_getElem? hd)
    cases hbase : d.base with
    | none => simp [hbase]
    | some base =>
      rw [hbase, Option.all_some] at hplain
      unfold isPlainBase at hplain
      split at hplain
      · obtain ⟨d', hd', rfl⟩ := Option.map_eq_some_iff.mp (beq_iff_eq.mp hplain)
        exact Or.inr ⟨_, d', by simp [hbase, Ty.instantiate, Ty.replace], by simp [hbase], hd'⟩
      · simp at hplain

/-! ## Finding an ancestor -/

theorem ascend_eq_some {links : Nat} {n : String} {args found : Option (List Ty)} :
    ds.ascend (fun _ n args => if n = name then some args else none) (links + 1)
        (.nominal id n args) = some found ↔
      (n = name ∧ found = args) ∨
      (n ≠ name ∧ found = none ∧ ∃ e ∈ ds.ancestors links id, ds.nameOf? e = some name) := by
  induction links generalizing id n args with
  | zero =>
    rw [ascend]
    by_cases hname : n = name
    · simp [hname, eq_comm]
    · simp only [hname, if_false]
      cases ds.baseOf id args <;> simp [ascend, ancestors]
  | succ links ih =>
    rw [ascend, ancestors]
    by_cases hname : n = name
    · simp [hname, eq_comm]
    · rcases h.baseOf_cases id args with ⟨hnone, hb⟩ | ⟨b, d, hsome, hb, hd⟩
      · simp [hname, hnone, hb]
      · have hfirst : ds.nameOf? b = some name ↔ d.name = name := by simp [nameOf?, hd]
        simp only [hname, if_false, hsome, hb, ih, List.mem_cons, exists_eq_or_imp, hfirst]
        by_cases hname' : d.name = name <;> simp [hname, hname']

theorem ancestorArgs?_eq_some {n : String} {args found : Option (List Ty)} :
    ds.ancestorArgs? name (.nominal id n args) = some found ↔
      (n = name ∧ found = args) ∨
      (n ≠ name ∧ found = none ∧
        ∃ e ∈ ds.ancestors maxBaseLinks id, ds.nameOf? e = some name) :=
  h.ascend_eq_some

end Plain

end ScriptTyping.Definitions
