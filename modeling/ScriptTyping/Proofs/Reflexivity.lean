import ScriptTyping.Proofs.Narrowing

/-!
# Assignability is reflexive

A union costs two steps: the source is split, and the target is searched for the member. Inside unions
the two go down one after the other, so the induction compares a type with another one of which it is
a branch. The two heights together are the steps that this takes, whatever the definitions are.
-/

namespace ScriptTyping

namespace Ty

variable {t u b c : Ty}

/-! ## Unknown members -/

/-- A union with the unknown type as a direct member. -/
def mixesUnknown : Ty → Bool
  | union members => members.any isUnknown
  | _ => false

/-- No union inside the type has the unknown type as a direct member. -/
def Unmixed (t : Ty) : Prop := ∀ u ∈ t.parts, u.mixesUnknown = false

instance (t : Ty) : Decidable t.Unmixed := inferInstanceAs (Decidable (∀ u ∈ t.parts, _))

theorem Unmixed.component (h : t.Unmixed) (hc : c ∈ t.components) : c.Unmixed :=
  (forall_parts_iff.mp h).2 c hc

theorem Known.unmixed (h : t.Known) : t.Unmixed := by
  induction t using induct_components with
  | step t ih =>
    refine forall_parts_iff.mpr ⟨?_, fun c hc => ih c hc (h.component hc)⟩
    cases t with
    | union members =>
      rw [mixesUnknown, List.any_eq_false]
      intro m hm
      simp [((known_union members).mp h m hm).not_isUnknown]
    | _ => rfl

theorem Branch.trans (h : t.Branch b) (h' : b.Branch c) : t.Branch c := by
  induction h with
  | self => exact h'
  | member hm _ ih => exact .member hm (ih h')

theorem Unmixed.eq_unknown (h : t.Unmixed) (hb : t.Branch .unknown) : t = .unknown := by
  generalize hu : Ty.unknown = b at hb
  induction hb with
  | self => rfl
  | @member members m _ hm _ ih =>
    have hmixed := h _ (mem_parts_self _)
    rw [mixesUnknown, List.any_eq_false] at hmixed
    have hm' := hmixed m hm
    simp [ih (h.component hm) hu, ← hu, isUnknown] at hm'

end Ty

namespace Definitions

open Ty (Alike)

variable {ds : Definitions} {s t b : Ty} {check : Ty → Ty → Bool}

/-! ## A step between alike types -/

theorem ancestorArgs?_self (ds : Definitions) (id : DefId) (name : String)
    (args : Option (List Ty)) : ds.ancestorArgs? name (.nominal id name args) = some args := by
  simp [ancestorArgs?, ascend]

theorem relatesArgs_of_alike {vs : List Variance} {ss ts : List Ty}
    (h : List.Forall₂ Alike ss ts)
    (hcheck : ∀ u ∈ ss, ∀ v ∈ ts, Alike u v → check u v = true ∧ check v u = true) :
    relatesArgs check vs ss ts = true := by
  induction h generalizing vs with
  | nil => simp [relatesArgs]
  | @cons u v ss ts huv _ ih =>
    obtain ⟨hforth, hback⟩ := hcheck u (by simp) v (by simp) huv
    rw [relatesArgs, ih fun x hx y hy => hcheck x (by simp [hx]) y (by simp [hy])]
    cases vs.headD .invariant <;> simp [relatesArg, hforth, hback]

theorem relates_of_alike (ds : Definitions) (hsimple : Simple s) (hnan : s.NaNFree) (h : Alike s t)
    (hcheck : ∀ u ∈ s.components, ∀ v ∈ t.components, Alike u v →
      check u v = true ∧ check v u = true) : ds.relates check s t = true := by
  cases h.shape with
  | unknown | never | union => exact hsimple.elim
  | literal hv =>
    rw [relates]
    exact LiteralValue.same_iff.mpr ⟨hv, (Ty.nanFree_iff.mp hnan).1⟩
  | @func ps qs r q hps hr =>
    simp only [relates, Bool.and_eq_true, decide_eq_true_eq, List.all_eq_true]
    refine ⟨⟨(hcheck r (.head _) q (.head _) hr).1, Nat.le_of_eq hps.length_eq⟩, ?_⟩
    rintro ⟨p, p'⟩ hp
    obtain ⟨hmem, hmem'⟩ := List.of_mem_zip hp
    exact (hcheck p.2 (.tail _ (List.mem_map_of_mem hmem)) p'.2 (.tail _ (List.mem_map_of_mem hmem'))
      (List.forall₂_zip hps hp).2).2
  | bare => simp [relates, relatesNominal, ancestorArgs?_self]
  | bound hts =>
    simp only [relates, relatesNominal, ancestorArgs?_self, hts.length_eq, beq_self_eq_true,
      Bool.true_and]
    exact relatesArgs_of_alike hts hcheck
  | param => simp [relates]

/-! ## Branches -/

/-- A type goes to each type that has it as a branch, up to literals of equal value. -/
theorem assignableWithin_of_branch (ds : Definitions) {n : Nat} (hnan : s.NaNFree)
    (hs : s.Unmixed) (ht : t.Unmixed) (hb : t.Branch b) (hsb : Alike s b)
    (hn : s.height + t.height ≤ n) : ds.assignableWithin n s t = true := by
  -- Splitting the source goes from `b` to one of its members, searching the target keeps `b`.
  induction n generalizing s t b with
  | zero =>
    have := s.height_pos
    omega
  | succ n ih =>
    rw [assignableWithin]
    rcases corner_or_not s with (rfl | rfl) | ⟨ms, rfl⟩ | hsimple
    · simp [relates]
    · cases hsb.shape
      rw [ht.eq_unknown hb, relates]
    · cases hsb.shape with
      | @union _ bs hms =>
        have htarget : (∃ ts, t = .union ts) ∨ Simple t := by
          cases hb with
          | self => exact Or.inl ⟨bs, rfl⟩
          | member => exact Or.inl ⟨_, rfl⟩
        rw [union_relates htarget]
        intro m hm
        obtain ⟨b, hbs, hmb⟩ := Ty.exists_of_forall₂ hms hm
        have hlt := Ty.height_lt_of_component (t := .union ms) hm
        exact ih (hnan.component hm) (hs.component hm) ht (hb.trans (.member hbs (.self b))) hmb
          (by omega)
    · cases hb with
      | @member members m _ hm hb =>
        have hlt := Ty.height_lt_of_component (t := .union members) hm
        rw [relates_to_union hsimple]
        exact ⟨m, hm, ih hnan hs (ht.component hm) hb hsb (by omega)⟩
      | self =>
        refine ds.relates_of_alike hsimple hnan hsb fun u hu v hv huv => ?_
        have hlt := Ty.height_lt_of_component hu
        have hlt' := Ty.height_lt_of_component hv
        have hu' := hnan.component hu
        -- Invariant arguments are compared both ways, and `Alike` is symmetric.
        exact ⟨ih hu' (hs.component hu) (ht.component hv) (.self v) huv (by omega),
          ih ((Ty.nanFree_of_alike huv).mp hu') (ht.component hv) (hs.component hu) (.self u) huv.symm
            (by omega)⟩

/-- A type that is at most 32 high goes to itself, whatever the definitions are: a name without a
definition, a wrong number of arguments and a cycle of bases do no harm. -/
theorem isAssignable_refl (ds : Definitions) (t : Ty) (hheight : t.height ≤ 32) (hnan : t.NaNFree)
    (hunknown : t.Unmixed) : ds.isAssignable t t = true := by
  have hlimit : maxRelationDepth = 64 := rfl
  exact ds.assignableWithin_of_branch hnan hunknown hunknown (.self t) (.refl t) (by omega)

/-- Two definitions that inherit from each other, and one more of the same name. -/
def tangled : Definitions where
  defs := #[⟨"Left", some (.nominal 1 "Right" none), [], []⟩,
    ⟨"Right", some (.nominal 0 "Left" none), [], [⟨"T", .input⟩]⟩, ⟨"Left", none, [], []⟩]

/-- Nested and empty unions, too many arguments and a definition that does not exist. -/
def knot : Ty :=
  .union [.union [], .union [.union [.param ⟨"T", .input⟩]],
    .func [("f", .unknown)] (.nominal 1 "Right" (some [Ty.number, .never])),
    .nominal 9 "Nowhere" (some [.union [.nominal 0 "Left" none]])]

theorem knot_assignable_to_itself : tangled.isAssignable knot knot = true :=
  isAssignable_refl tangled knot (by decide) (by decide) (by decide)

end Definitions

end ScriptTyping
