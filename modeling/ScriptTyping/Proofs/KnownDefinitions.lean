import ScriptTyping.Narrowing
import ScriptTyping.Proofs.KnownTypes

/-!
# Definitions without an unknown part

What is looked up in such definitions, related by them or inferred from known types is known. The
one exception is a type parameter that no argument has touched.
-/

namespace ScriptTyping

namespace Definitions

variable {ds : Definitions} {id : DefId} {name : String} {t u : Ty}

/-- Bases and members are known. -/
def Known (ds : Definitions) : Prop :=
  ∀ d ∈ ds.defs.toList, (∀ b ∈ d.base, b.Known) ∧ ∀ m ∈ d.members, m.ty.Known

instance (ds : Definitions) : Decidable ds.Known :=
  inferInstanceAs (Decidable (∀ d ∈ ds.defs.toList, _))

theorem Known.get (hds : ds.Known) {d : Definition} (hd : ds.get? id = some d) :
    (∀ b ∈ d.base, b.Known) ∧ ∀ m ∈ d.members, m.ty.Known :=
  hds d (Array.mem_toList_iff.mpr (Array.mem_of_getElem? hd))

/-! ## Relating types -/

theorem known_commonSupertype (ht : t.Known) (hu : u.Known) : (ds.commonSupertype t u).Known := by
  unfold commonSupertype
  rw [ht.not_isUnknown, hu.not_isUnknown]
  simp only [Bool.or_self, Bool.false_eq_true, if_false]
  split
  · exact hu
  · split
    · exact ht
    · simp [ht, hu]

theorem known_narrow (ht : t.Known) (hu : u.Known) : (ds.narrow t u).Known := by
  induction u with
  | union members ih =>
    unfold narrow
    rw [hu.not_isUnknown, ht.not_isUnknown]
    simp only [Bool.false_eq_true, if_false]
    split
    · exact hu
    · split
      · exact ht
      · rw [Ty.known_unionOf, narrowEach_eq_map]
        intro v hv
        obtain ⟨m, hm, rfl⟩ := List.mem_map.mp (List.mem_of_mem_filter hv)
        exact ih m hm ((Ty.known_union members).mp hu m hm)
  | _ =>
    unfold narrow
    rw [hu.not_isUnknown, ht.not_isUnknown]
    simp only [Bool.false_eq_true, if_false]
    split
    · exact hu
    · split
      · exact ht
      · exact Ty.known_never

theorem known_bind {ts : List Ty} (hts : ∀ t ∈ ts, t.Known) (h : ds.bind u ts = .ok t) :
    t.Known := by
  obtain ⟨id, name, d, -, -, -, -, rfl⟩ := bind_eq_ok h
  simpa using hts

/-! ## Looking up and inferring -/

theorem Known.hereditary (hds : ds.Known) : ds.Hereditary Ty.Known where
  component := Ty.Known.component
  instantiate := Ty.Known.instantiate
  supertype := known_commonSupertype
  base hd hb := (hds.get hd).1 _ hb
  member hd hm := (hds.get hd).2 _ hm

theorem known_findMembers (hds : ds.Known) (ht : t.Known) {m : Member}
    (hm : m ∈ ds.findMembers t name) : m.ty.Known :=
  hds.hereditary.findMembers ht hm

end Definitions

theorem Inference.known_infer {ds : Definitions} {i : Inference} {parameter argument : Ty}
    (hds : ds.Known) (hi : i.bindings.Known) (ha : argument.Known) :
    (i.infer ds parameter argument).bindings.Known :=
  hds.hereditary.infer hi ha

end ScriptTyping
