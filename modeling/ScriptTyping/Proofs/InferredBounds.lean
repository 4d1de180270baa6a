import ScriptTyping.Proofs.Bounds
import ScriptTyping.Proofs.InferredParts
import ScriptTyping.Proofs.RelationDepth

/-!
# Inferred bindings are least upper bounds

The parts that a name is met with are joined one by one. Each join is above both of its sides, and
assignability is transitive, so that the last one is above all parts. It is built from alternatives
of the parts, and therefore below whatever all parts are below. The order of the parts does not
matter, nor does the order of the arguments that they come from. The limit of the relation has a say
in one place: a union is opened in a step of its own.
-/

namespace ScriptTyping

namespace Ty

theorem forall_alternatives_unionOf {P : Ty → Prop} {ts : List Ty} (never : P .never)
    (down : ∀ t, P t → ∀ u ∈ t.alternatives, P u) (h : ∀ t ∈ ts, ∀ u ∈ t.alternatives, P u) :
    ∀ u ∈ (unionOf ts).alternatives, P u := by
  have hflat : ∀ u ∈ flatten ts, P u := by
    intro u hu
    obtain ⟨t, ht, hut, -⟩ := exists_of_mem_flatten hu
    exact h t ht u hut
  refine unionOf_cases (P := fun t => ∀ u ∈ t.alternatives, P u) ?_
    (fun t ht => down t (hflat t ht)) fun _ => hflat
  simpa [alternatives] using never

/-- Apart from unions and never, all parts of the type are among the given types. -/
def BuiltFrom (types : List Ty) (t : Ty) : Prop :=
  ∀ u ∈ t.parts, u.isUnion = true ∨ u = .never ∨ u ∈ types

/-- A type that an inference can come to from arguments of a height of at most 20 with the given
parts. -/
structure Inferable (types : List Ty) (t : Ty) : Prop where
  known : t.Known
  nanFree : t.NaNFree
  low : ∀ u ∈ t.alternatives, u.height ≤ 20
  built : t.BuiltFrom types

namespace Inferable

variable {types : List Ty} {t c : Ty}

theorem of_height (hknown : t.Known) (hnan : t.NaNFree) (hheight : t.height ≤ 20)
    (hparts : ∀ u ∈ t.parts, u ∈ types) : t.Inferable types where
  known := hknown
  nanFree := hnan
  low _ hu := Nat.le_trans (height_of_alternative hu) hheight
  built u hu := Or.inr (Or.inr (hparts u hu))

theorem height_le (h : t.Inferable types) : t.height ≤ 21 := by
  have hlow := h.low
  cases t with
  | union members =>
    rw [height]
    exact Nat.succ_le_succ (heightList_le hlow)
  | _ => exact Nat.le_succ_of_le (hlow _ (List.mem_singleton_self _))

theorem component (h : t.Inferable types) (hc : c ∈ t.components) : c.Inferable types where
  known := h.known.component hc
  nanFree := h.nanFree.component hc
  low u hu := by
    have := height_of_alternative hu
    have := height_lt_of_component hc
    have := h.height_le
    omega
  built := (forall_parts_iff.mp h.built).2 c hc

theorem unionOf {ts : List Ty} (h : ∀ t ∈ ts, t.Inferable types) :
    (unionOf ts).Inferable types where
  known := (known_unionOf ts).mpr fun t ht => (h t ht).known
  nanFree := forall_parts_unionOf rfl (fun _ => rfl) fun t ht => (h t ht).nanFree
  low := forall_alternatives_unionOf (by simp [height])
    (fun _ hle _ hu => Nat.le_trans (height_of_alternative hu) hle) fun t ht => (h t ht).low
  built := forall_parts_unionOf (Or.inr (Or.inl rfl)) (fun _ => Or.inl rfl)
    fun t ht => (h t ht).built

end Inferable

end Ty

namespace Definitions

open Ty (Alike)

variable {ds : Definitions} {types : List Ty} {a b c : Ty}

theorem commonSupertype_of {P : Ty → Prop} (hak : a.Known) (hbk : b.Known) (ha : P a) (hb : P b)
    (union : P (Ty.unionOf [a, b])) : P (ds.commonSupertype a b) := by
  unfold commonSupertype
  rw [hak.not_isUnknown, hbk.not_isUnknown]
  split
  · rename_i h
    cases h
  · split
    · exact hb
    · split
      · exact ha
      · exact union

theorem inferable_commonSupertype (ha : a.Inferable types) (hb : b.Inferable types) :
    (ds.commonSupertype a b).Inferable types :=
  commonSupertype_of ha.known hb.known ha hb (Ty.Inferable.unionOf (by simp [ha, hb]))

theorem coherent_builtFrom (hnamed : ∀ t ∈ types, ds.carriesName t = true)
    (hbacked : ∀ s ∈ types, ∀ t ∈ types, backedAlike s t = true) :
    ds.Coherent (Ty.BuiltFrom types) where
  closed t ht u hu := (Ty.forall_parts_iff.mp ht).2 u hu
  named id name args ht := by
    have hmem : .nominal id name args ∈ types := by
      simpa [Ty.isUnion] using ht _ (Ty.mem_parts_self _)
    simpa [carriesName] using hnamed _ hmem
  backed v w x y hs ht hvw := by
    have hmem : .literal v x ∈ types := by simpa [Ty.isUnion] using hs _ (Ty.mem_parts_self _)
    have hmem' : .literal w y ∈ types := by simpa [Ty.isUnion] using ht _ (Ty.mem_parts_self _)
    simpa [backedAlike, hvw] using hbacked _ hmem _ hmem'

/-! ## Alternatives within the limit -/

theorem alternatives_within {n : Nat} (hcorner : ¬ Corner c)
    (ha : ds.assignableWithin n a c = true) :
    ∀ u ∈ a.alternatives, ds.assignableWithin n u c = true := by
  intro u hu
  cases a with
  | union members =>
    cases n with
    | zero => cases ha
    | succ n =>
      rw [assignableWithin, union_relates ((corner_or_not c).resolve_left hcorner)] at ha
      exact assignableWithin_mono (Nat.le_succ n) (ha u hu)
  | _ => rwa [List.mem_singleton.mp hu]

theorem within_of_alternatives {n : Nat} (hcorner : ¬ Corner c)
    (ha : ∀ u ∈ a.alternatives, ds.assignableWithin n u c = true) :
    ds.assignableWithin (n + 1) a c = true := by
  cases a with
  | union members =>
    rw [assignableWithin, union_relates ((corner_or_not c).resolve_left hcorner)]
    exact ha
  | _ => exact assignableWithin_mono (Nat.le_succ n) (ha _ (List.mem_singleton_self _))

theorem eq_never_of_within {n : Nat} (hak : a.Known) (hcorner : Corner c)
    (ha : ds.assignableWithin n a c = true) : a = .never := by
  cases n with
  | zero => cases ha
  | succ n => rcases hcorner with rfl | rfl <;> cases a <;> simp_all [assignableWithin, relates]

end Definitions

namespace Inference

open Definitions (Corner)

variable {ds : Definitions} {types parts : List Ty} {a b c e : Ty} {name : String}

/-! ## Joining parts -/

/-- Every part is below the join, since each part that comes later makes it more general. -/
theorem relatesFully_join (h : ds.Plain) (hc : ds.Coherent (Ty.BuiltFrom types))
    (hparts : ∀ a ∈ parts, a.Inferable types) (hb : join? ds parts = some b) :
    ∀ a ∈ parts, ds.relatesFully a b = true := by
  have hlimit : maxRelationDepth = 64 := rfl
  have hfold : ∀ {parts : List Ty} {e : Ty}, e.Inferable types → (∀ a ∈ parts, a.Inferable types) →
      parts.foldl ds.commonSupertype e = b →
      b.Inferable types ∧ ds.relatesFully e b = true ∧ ∀ a ∈ parts, ds.relatesFully a b = true := by
    intro parts
    induction parts with
    | nil =>
      rintro e he - rfl
      exact ⟨he, ds.relatesFully_refl he.known he.nanFree, by simp⟩
    | cons a parts ih =>
      intro e he hparts hb
      obtain ⟨ha, hparts⟩ := List.forall_mem_cons.mp hparts
      have hsup := ds.inferable_commonSupertype he ha
      obtain ⟨hbi, hsupb, hrest⟩ := ih hsup hparts hb
      obtain ⟨hleft, hright⟩ := h.argumentFreeBases.relatesFully_commonSupertype he.known ha.known
        he.nanFree ha.nanFree (by have := he.height_le; have := ha.height_le; omega)
      have htrans : ∀ {x : Ty}, x.Inferable types →
          ds.relatesFully x (ds.commonSupertype e a) = true → ds.relatesFully x b = true :=
        fun hx hxs => h.relatesFully_trans hc hx.built hsup.built hbi.built hxs hsupb
      exact ⟨hbi, htrans he hleft, List.forall_mem_cons.mpr ⟨htrans ha hright, hrest⟩⟩
  cases parts with
  | nil => cases hb
  | cons a parts =>
    obtain ⟨ha, hparts⟩ := List.forall_mem_cons.mp hparts
    obtain ⟨-, hab, hrest⟩ := hfold ha hparts (Option.some.inj ((join?_cons a parts).symm.trans hb))
    exact List.forall_mem_cons.mpr ⟨hab, hrest⟩

/-- Below what all parts go to within some number of steps, the join is within one step more. -/
theorem join_within {n : Nat} (hknown : ∀ a ∈ parts, a.Known) (hb : join? ds parts = some b)
    (hn : 0 < n) (hc : ∀ a ∈ parts, ds.assignableWithin n a c = true) :
    ds.assignableWithin (n + 1) b c = true := by
  have hnever : ∀ {m : Nat} {t : Ty}, 0 < m → ds.assignableWithin m .never t = true := by
    intro m t hm
    obtain ⟨m, rfl⟩ : ∃ k, m = k + 1 := ⟨m - 1, by omega⟩
    simp [Definitions.assignableWithin, Definitions.relates]
  by_cases hcorner : Corner c
  · have hb' : b = .never := by
      refine join?_induct (P := (· = .never))
        (fun a ha => Definitions.eq_never_of_within (hknown a ha) hcorner (hc a ha)) ?_ hb
      rintro _ _ rfl rfl
      exact Definitions.commonSupertype_of (P := (· = .never)) Ty.known_never Ty.known_never rfl rfl
        rfl
    rw [hb']
    exact hnever (Nat.succ_pos n)
  · refine Definitions.within_of_alternatives hcorner (join?_induct
      (P := fun t => t.Known ∧ ∀ u ∈ t.alternatives, ds.assignableWithin n u c = true)
      (fun a ha => ⟨hknown a ha, Definitions.alternatives_within hcorner (hc a ha)⟩) ?_ hb).2
    rintro a b ⟨hak, ha⟩ ⟨hbk, hb⟩
    refine ⟨Definitions.known_commonSupertype hak hbk, Definitions.commonSupertype_of
      (P := fun t => ∀ u ∈ t.alternatives, ds.assignableWithin n u c = true) hak hbk ha hb ?_⟩
    exact Ty.forall_alternatives_unionOf (hnever hn)
      (fun _ => Definitions.alternatives_within hcorner) (by simpa using ⟨ha, hb⟩)

/-! ## Least upper bounds -/

/-- Above all parts, and below whatever all parts go to. There the limit has to leave one step, in
which the bound is opened; below low types it always does. -/
structure LeastAbove (ds : Definitions) (parts : List Ty) (b : Ty) : Prop where
  above : ∀ a ∈ parts, ds.isAssignable a b = true
  least : ∀ c, (∀ a ∈ parts, ds.assignableWithin (maxRelationDepth - 1) a c = true) →
    ds.isAssignable b c = true
  least_low : ∀ c : Ty, c.height ≤ 43 → (∀ a ∈ parts, ds.isAssignable a c = true) →
    ds.isAssignable b c = true

theorem leastAbove_join (h : ds.Plain) (hc : ds.Coherent (Ty.BuiltFrom types))
    (hparts : ∀ a ∈ parts, a.Inferable types) (hlow : ∀ a ∈ parts, a.height ≤ 20)
    (hb : join? ds parts = some b) : LeastAbove ds parts b := by
  have hlimit : maxRelationDepth = 64 := rfl
  have hheight : b.height ≤ 21 :=
    (join?_induct hparts (fun ha hb => ds.inferable_commonSupertype ha hb) hb).height_le
  have hleast : ∀ c, (∀ a ∈ parts, ds.assignableWithin (maxRelationDepth - 1) a c = true) →
      ds.isAssignable b c = true :=
    fun c hc => join_within (fun a ha => (hparts a ha).known) hb (by omega) hc
  refine ⟨fun a ha => ?_, hleast, fun c hcheight hc => hleast c fun a ha => ?_⟩
  · have := hlow a ha
    rw [h.isAssignable_eq (by omega)]
    exact relatesFully_join h hc hparts hb a ha
  · have := hlow a ha
    rw [h.argumentFreeBases.assignableWithin_alike (.refl a) (.refl c) (n := maxRelationDepth)
      (by omega) (by omega)]
    exact hc a ha

theorem LeastAbove.equivalent {parts' : List Ty} (h : LeastAbove ds parts a)
    (h' : LeastAbove ds parts' b) (hperm : parts.Perm parts') (ha : a.height ≤ 43)
    (hb : b.height ≤ 43) : ds.areEquivalent a b = true := by
  rw [Definitions.areEquivalent, Bool.and_eq_true]
  exact ⟨h.least_low b hb fun x hx => h'.above x (hperm.mem_iff.mp hx),
    h'.least_low a ha fun x hx => h.above x (hperm.mem_iff.mpr hx)⟩

/-- All parts of the arguments. -/
def argumentParts (calls : List (Ty × Ty)) : List Ty := calls.flatMap fun c => c.2.parts

/-- Arguments that assignability relates without the limit coming in between. -/
structure Relatable (ds : Definitions) (calls : List (Ty × Ty)) : Prop where
  known : ∀ c ∈ calls, c.2.Known
  nanFree : ∀ c ∈ calls, c.2.NaNFree
  low : ∀ c ∈ calls, c.2.height ≤ 20
  named : ∀ t ∈ argumentParts calls, ds.carriesName t = true
  backed : ∀ s ∈ argumentParts calls, ∀ t ∈ argumentParts calls, Definitions.backedAlike s t = true

namespace Relatable

variable {calls calls' : List (Ty × Ty)} (hcalls : Relatable ds calls)

include hcalls

theorem perm (hperm : calls.Perm calls') : Relatable ds calls' := by
  have hparts : ∀ t, t ∈ argumentParts calls' ↔ t ∈ argumentParts calls :=
    fun _ => (hperm.flatMap_right _).mem_iff.symm
  exact ⟨fun c hc => hcalls.known c (hperm.mem_iff.mpr hc),
    fun c hc => hcalls.nanFree c (hperm.mem_iff.mpr hc),
    fun c hc => hcalls.low c (hperm.mem_iff.mpr hc),
    fun t ht => hcalls.named t ((hparts t).mp ht),
    fun s hs t ht => hcalls.backed s ((hparts s).mp hs) t ((hparts t).mp ht)⟩

theorem get?_bindings (h : ds.Plain) (free : List String) (name : String) :
    (inferAll ds ⟨free, .empty⟩ calls).bindings.get? name =
      if name ∈ free then join? ds (partsOf name (allPairings ds calls)) else none := by
  have hlimit : maxRelationDepth = 64 := rfl
  refine get?_inferAll (fun c hc => Or.inr ⟨h.argumentFreeBases, ?_⟩) free name
  have := hcalls.low c hc
  omega

theorem get?_bindings_eq_none (h : ds.Plain) {free : List String} :
    (inferAll ds ⟨free, .empty⟩ calls).bindings.get? name = none ↔
      name ∉ free ∨ partsOf name (allPairings ds calls) = [] := by
  rw [hcalls.get?_bindings h, ite_eq_right_iff, join?_eq_none, Decidable.imp_iff_not_or]

theorem inferable_partsOf (h : ds.Plain) (name : String) :
    ∀ a ∈ partsOf name (allPairings ds calls),
      a.Inferable (argumentParts calls) ∧ a.height ≤ 20 := by
  refine partsOf_forall fun p hp => ?_
  obtain ⟨c, hc, hp⟩ := List.mem_flatMap.mp hp
  have hcomponent : ∀ {t u : Ty}, t.Inferable (argumentParts calls) ∧ t.height ≤ 20 →
      u ∈ t.components → u.Inferable (argumentParts calls) ∧ u.height ≤ 20 := by
    intro t u ht hu
    have := Ty.height_lt_of_component hu
    exact ⟨ht.1.component hu, by omega⟩
  refine forall_pairings hcomponent (fun {t name ts} ht hts => ?_) ⟨.of_height (hcalls.known c hc)
    (hcalls.nanFree c hc) (hcalls.low c hc) fun u hu => List.mem_flatMap.mpr ⟨c, hc, hu⟩,
    hcalls.low c hc⟩ p hp
  -- An ancestor with arguments is the type itself.
  cases t with
  | nominal id n args =>
    rcases h.ancestorArgs?_eq_some.mp hts with ⟨-, rfl⟩ | ⟨-, hnone, -⟩
    · exact fun u hu => hcomponent ht hu
    · cases hnone
  | _ => simp [Definitions.ancestorArgs?, Definitions.ascend] at hts

theorem leastAbove (h : ds.Plain) {free : List String}
    (hb : (inferAll ds ⟨free, .empty⟩ calls).bindings.get? name = some b) :
    LeastAbove ds (partsOf name (allPairings ds calls)) b ∧ b.height ≤ 21 := by
  rw [hcalls.get?_bindings h] at hb
  split at hb
  · have hparts := hcalls.inferable_partsOf h name
    exact ⟨leastAbove_join h (Definitions.coherent_builtFrom hcalls.named hcalls.backed)
      (fun a ha => (hparts a ha).1) (fun a ha => (hparts a ha).2) hb,
      (join?_induct (fun a ha => (hparts a ha).1)
        (fun ha hb => ds.inferable_commonSupertype ha hb) hb).height_le⟩
  · cases hb

end Relatable

/-- After any calls the names that are bound are the free ones that were met, each to a least upper
bound of the parts that it was met with. In another order of the calls the bounds are equivalent. -/
theorem bindings_leastAbove (h : ds.Plain) (free : List String) {calls : List (Ty × Ty)}
    (hcalls : Relatable ds calls) :
    let inferred := inferAll ds ⟨free, .empty⟩ calls
    (∀ name, (inferred.bindings.get? name = none ↔
        name ∉ free ∨ partsOf name (allPairings ds calls) = []) ∧
      inferred.finish.get? name =
        if name ∈ free then some ((inferred.bindings.get? name).getD .unknown) else none) ∧
    (∀ name b, inferred.bindings.get? name = some b →
      LeastAbove ds (partsOf name (allPairings ds calls)) b) ∧
    ∀ calls', calls.Perm calls' → ∀ name,
      Option.Rel (fun b b' => ds.areEquivalent b b' = true) (inferred.bindings.get? name)
        ((inferAll ds ⟨free, .empty⟩ calls').bindings.get? name) := by
  intro inferred
  refine ⟨fun name => ⟨?_, ?_⟩, fun name b hb => (hcalls.leastAbove h hb).1, ?_⟩
  · exact hcalls.get?_bindings_eq_none h
  · rw [get?_finish, free_inferAll, hcalls.get?_bindings h]
    split <;> cases join? ds (partsOf name (allPairings ds calls)) <;> rfl
  · intro calls' hperm name
    have hcalls' := hcalls.perm hperm
    have hparts : (partsOf name (allPairings ds calls)).Perm
        (partsOf name (allPairings ds calls')) :=
      (hperm.flatMap_right _).filterMap _
    have hnone : inferred.bindings.get? name = none ↔
        (inferAll ds ⟨free, .empty⟩ calls').bindings.get? name = none := by
      rw [hcalls.get?_bindings_eq_none h, hcalls'.get?_bindings_eq_none h,
        ← List.length_eq_zero_iff, hparts.length_eq, List.length_eq_zero_iff]
    cases hb : inferred.bindings.get? name with
    | none =>
      rw [hnone.mp hb]
      exact .none
    | some b =>
      cases hb' : (inferAll ds ⟨free, .empty⟩ calls').bindings.get? name with
      | none => simp [hnone.mpr hb'] at hb
      | some b' =>
        obtain ⟨hleast, hheight⟩ := hcalls.leastAbove h hb
        obtain ⟨hleast', hheight'⟩ := hcalls'.leastAbove h hb'
        exact .some (hleast.equivalent hleast' hparts (by omega) (by omega))

/-- A dog is an animal, and the list's element type takes it in; the number comes later. -/
theorem animals_and_number_joined :
    let t : Ty := .param ⟨"T", .output⟩
    let dog : Ty := .nominal 6 "Dog" none
    let named : Ty := .union [Ty.ofLiteral (.text "a"), .nominal 5 "Animal" none]
    let calls : List (Ty × Ty) := [(.func [("x", t)] (Ty.listOf t), .func [("y", dog)]
      (Ty.listOf named)), (t, Ty.number)]
    let inferred := inferAll Definitions.kennel ⟨["T", "U"], .empty⟩ calls
    LeastAbove Definitions.kennel [dog, named, Ty.number]
      (.union [Ty.ofLiteral (.text "a"), .nominal 5 "Animal" none, Ty.number]) ∧
    inferred.finish.get? "U" = some .unknown := by
  intro t dog named calls inferred
  have hplain : Definitions.kennel.Plain := ⟨by decide, by decide, by decide⟩
  have hcalls : Relatable Definitions.kennel calls :=
    ⟨by decide, by decide, by decide, by decide, by decide⟩
  have h := bindings_leastAbove hplain ["T", "U"] hcalls
  exact ⟨h.2.1 "T" _ (by decide), (h.1 "U").2.trans (by decide)⟩

/-- Functions without parameters, `n` of them around the type. -/
def thunks : Nat → Ty → Ty
  | 0, t => t
  | n + 1, t => .func [] (thunks n t)

/-- Unions of one member, `n` of them around the type. -/
def boxes : Nat → Ty → Ty
  | 0, t => t
  | n + 1, t => .union [boxes n t]

/-- Without a step to spare the bound need not be least: each of two functions goes to a third one
in 64 steps, and their union would take one more. -/
theorem bound_can_miss_by_one_step :
    ¬ ∀ (ds : Definitions) (free : List String) (calls : List (Ty × Ty)) (name : String) (b c : Ty),
      ds.Plain → Relatable ds calls →
      (inferAll ds ⟨free, .empty⟩ calls).bindings.get? name = some b →
      c.Known → c.NaNFree → (∀ t ∈ c.parts, ds.carriesName t = true) →
      (∀ a ∈ partsOf name (allPairings ds calls), ds.isAssignable a c = true) →
      ds.isAssignable b c = true := by
  intro h
  let t : Ty := .param ⟨"T", .invariant⟩
  let text := thunks 19 Ty.string
  let number := thunks 19 Ty.number
  have hle := h .builtin ["T"] [(t, text), (t, number)] "T" (.union [text, number])
    (thunks 19 (boxes 43 (.union [Ty.string, Ty.number]))) ⟨by decide, by decide, by decide⟩
    ⟨by decide, by decide, by decide, by decide, by decide⟩ (by decide) (by decide) (by decide)
    (by decide) (by decide)
  exact absurd hle (by decide)

end Inference

end ScriptTyping
