import ScriptTyping.Proofs.AlikeTypes
import ScriptTyping.Proofs.WellFormedTypes

/-!
# Flat unions

Whether a type is kept when a union is built depends only on the types before it that are the same. So
it does not matter if repetitions are dropped once more on the way, and a union that is flat already is
built as it is.
-/

namespace ScriptTyping.Ty

variable {t u k w : Ty} {kept ts us : List Ty}

/-! ## Dropping repetitions -/

/-- Each type where it is first seen. -/
def distinct (ts : List Ty) : List Ty := ts.foldl addDistinct []

theorem addDistinct_of_same (hk : k ∈ kept) (hku : (k == u) = true) : addDistinct kept u = kept := by
  rw [addDistinct, if_pos (List.any_eq_true.mpr ⟨k, hk, hku⟩)]

theorem foldl_addDistinct_of_same (h : ∀ u ∈ us, ∃ k ∈ kept, (k == u) = true) :
    us.foldl addDistinct kept = kept := by
  induction us with
  | nil => rfl
  | cons u us ih =>
    obtain ⟨k, hk, hku⟩ := h u (by simp)
    rw [List.foldl_cons, addDistinct_of_same hk hku]
    exact ih fun v hv => h v (by simp [hv])

theorem exists_same_of_mem (kept : List Ty) (hk : k ∈ ts) (hku : (k == u) = true) :
    ∃ k' ∈ ts.foldl addDistinct kept, (k' == u) = true := by
  have hself : (k == k) = true := beq_trans hku (beq_symm hku)
  have hkept : ∃ k' ∈ ts.foldl addDistinct kept, (k' == k) = true :=
    exists_mem_foldl_addDistinct (Or.inr ⟨hk, hself⟩)
  obtain ⟨k', hk', hkk'⟩ := hkept
  exact ⟨k', hk', beq_trans hkk' hku⟩

/-- Repetitions among the types to be added may be dropped before. -/
theorem foldl_addDistinct_distinct (kept us : List Ty) :
    (distinct us).foldl addDistinct kept = us.foldl addDistinct kept := by
  -- The inner list of kept types grows along the fold, so it is not empty in the induction.
  have hfold : ∀ (us acc : List Ty), (us.foldl addDistinct acc).foldl addDistinct kept =
      us.foldl addDistinct (acc.foldl addDistinct kept) := by
    intro us
    induction us with
    | nil => simp
    | cons u us ih =>
      intro acc
      rw [List.foldl_cons, List.foldl_cons, ih]
      congr 1
      by_cases hany : acc.any (· == u) = true
      · obtain ⟨k, hk, hku⟩ := List.any_eq_true.mp hany
        obtain ⟨k', hk', hku'⟩ := exists_same_of_mem kept hk hku
        rw [addDistinct_of_same hk hku, addDistinct_of_same hk' hku']
      · rw [addDistinct, if_neg hany, List.foldl_append, List.foldl_cons, List.foldl_nil]
  exact hfold us []

theorem distinct_flatMap_distinct {g : Ty → List Ty}
    (hg : ∀ k u, (k == u) = true → ∀ w ∈ g u, ∃ v ∈ g k, (v == w) = true) (us : List Ty) :
    distinct ((distinct us).flatMap g) = distinct (us.flatMap g) := by
  have hfold : ∀ us acc : List Ty,
      distinct ((us.foldl addDistinct acc).flatMap g) = distinct ((acc ++ us).flatMap g) := by
    intro us
    induction us with
    | nil => simp
    | cons u us ih =>
      intro acc
      rw [List.foldl_cons, ih]
      by_cases hany : acc.any (· == u) = true
      · obtain ⟨k, hk, hku⟩ := List.any_eq_true.mp hany
        -- `u` is dropped for `k`, and what it stands for would have been dropped for what `k` does.
        have hcovered : (g u).foldl addDistinct (distinct (acc.flatMap g)) =
            distinct (acc.flatMap g) := by
          refine foldl_addDistinct_of_same fun w hw => ?_
          obtain ⟨v, hv, hvw⟩ := hg k u hku w hw
          exact exists_same_of_mem _ (List.mem_flatMap.mpr ⟨k, hk, hv⟩) hvw
        unfold distinct at hcovered ⊢
        rw [addDistinct_of_same hk hku]
        simp only [List.flatMap_append, List.flatMap_cons, List.foldl_append, hcovered]
      · rw [addDistinct, if_neg hany, List.append_assoc, List.singleton_append]
  exact hfold us []

theorem foldl_addDistinct_flatMap {f g : Ty → List Ty}
    (h : ∀ t ∈ ts, ∀ kept, (f t).foldl addDistinct kept = (g t).foldl addDistinct kept)
    (kept : List Ty) :
    (ts.flatMap f).foldl addDistinct kept = (ts.flatMap g).foldl addDistinct kept := by
  induction ts generalizing kept with
  | nil => rfl
  | cons t ts ih =>
    rw [List.flatMap_cons, List.flatMap_cons, List.foldl_append, List.foldl_append, h t (by simp)]
    exact ih (fun u hu => h u (by simp [hu])) _

theorem distinct_eq_self (h : ts.Pairwise fun a b => (a == b) = false) : distinct ts = ts := by
  have hfold : ∀ us kept : List Ty, (kept ++ us).Pairwise (fun a b => (a == b) = false) →
      us.foldl addDistinct kept = kept ++ us := by
    intro us
    induction us with
    | nil => simp
    | cons u us ih =>
      intro kept hpairs
      have hnew : ¬ kept.any (· == u) = true := by
        rw [Bool.not_eq_true, List.any_eq_false]
        intro k hk
        simp [(List.pairwise_append.mp hpairs).2.2 k hk u (by simp)]
      rw [List.foldl_cons, addDistinct, if_neg hnew, ih _ (by simpa using hpairs)]
      simp
  exact hfold ts [] h

/-! ## Flat types -/

/-- A union of two members or more, none of them a union or never and no two of them the same. Any type
that is no union is flat. -/
def Flat : Ty → Prop
  | union members => 2 ≤ members.length ∧ (∀ m ∈ members, m.isUnion = false ∧ m.isNever = false) ∧
      members.Pairwise fun a b => (a == b) = false
  | _ => True

instance : DecidablePred Flat
  | union members => inferInstanceAs (Decidable (2 ≤ members.length ∧
      (∀ m ∈ members, m.isUnion = false ∧ m.isNever = false) ∧
      members.Pairwise fun a b => (a == b) = false))
  | nominal .. => .isTrue trivial
  | unknown => .isTrue trivial
  | never => .isTrue trivial
  | literal .. => .isTrue trivial
  | func .. => .isTrue trivial
  | param _ => .isTrue trivial

/-- No union stands directly inside a union. -/
def Shallow (t : Ty) : Prop := ∀ u ∈ t.alternatives, u.isUnion = false

instance : DecidablePred Shallow := fun t =>
  inferInstanceAs (Decidable (∀ u ∈ t.alternatives, u.isUnion = false))

/-- Every union inside the type is flat. -/
def FlatUnions (t : Ty) : Prop := ∀ u ∈ t.parts, u.Flat

instance (t : Ty) : Decidable t.FlatUnions := inferInstanceAs (Decidable (∀ u ∈ t.parts, _))

theorem flat_of_not_union (h : t.isUnion = false) : t.Flat := by
  cases t with
  | union => cases h
  | _ => trivial

/-- The alternatives that a union is built from. -/
def properAlternatives (t : Ty) : List Ty := t.alternatives.filter fun u => !u.isNever

theorem flatten_eq (ts : List Ty) : flatten ts = distinct (ts.flatMap properAlternatives) := by
  rw [flatten, List.filter_flatMap]
  rfl

theorem Flat.shallow (h : t.Flat) : t.Shallow := by
  intro u hu
  cases t with
  | union members => exact (h.2.1 u hu).1
  | _ => rw [List.mem_singleton.mp hu]; rfl

theorem properAlternatives_eq_self (hunion : t.isUnion = false) (hnever : t.isNever = false) :
    t.properAlternatives = [t] := by
  cases t with
  | union => cases hunion
  | never => cases hnever
  | _ => rfl

theorem flatten_of_members (h : ∀ m ∈ ts, m.isUnion = false ∧ m.isNever = false)
    (hpairs : ts.Pairwise fun a b => (a == b) = false) : flatten ts = ts := by
  have hself : ts.flatMap properAlternatives = ts := by
    induction ts with
    | nil => rfl
    | cons t ts ih =>
      obtain ⟨hunion, hnever⟩ := h t (by simp)
      rw [List.flatMap_cons, properAlternatives_eq_self hunion hnever,
        ih (fun m hm => h m (by simp [hm])) (List.pairwise_cons.mp hpairs).2]
      rfl
  rw [flatten_eq, hself, distinct_eq_self hpairs]

theorem Flat.unionOf_members {ms : List Ty} (h : (union ms).Flat) : unionOf ms = union ms := by
  obtain ⟨hlen, hmembers, hpairs⟩ := h
  rw [unionOf, flatten_of_members hmembers hpairs]
  match ms, hlen with
  | _ :: _ :: _, _ => rfl

theorem Flat.unionOf_self (h : t.Flat) : unionOf [t] = t := by
  cases t with
  | union ms =>
    have hmembers : (union ms).properAlternatives = ms := by
      refine List.filter_eq_self.mpr fun m hm => ?_
      simp [(h.2.1 m hm).2]
    have hflat : flatten [union ms] = flatten ms := by
      rw [flatten_of_members h.2.1 h.2.2, flatten_eq, List.flatMap_singleton, hmembers,
        distinct_eq_self h.2.2]
    rw [unionOf, hflat]
    exact h.unionOf_members
  | _ => rfl

theorem not_isUnion_of_mem_flatten (h : ∀ t ∈ ts, t.Shallow) (hu : u ∈ flatten ts) :
    u.isUnion = false ∧ u.isNever = false := by
  obtain ⟨t, ht, hta, hnever⟩ := exists_of_mem_flatten hu
  exact ⟨h t ht u hta, hnever⟩

theorem pairwise_flatten (ts : List Ty) : (flatten ts).Pairwise fun a b => (a == b) = false :=
  pairwise_foldl_addDistinct _ .nil

theorem flat_unionOf (h : ∀ t ∈ ts, t.Shallow) : (unionOf ts).Flat := by
  have hmember := fun u hu => not_isUnion_of_mem_flatten (u := u) h hu
  refine unionOf_cases (P := Flat) trivial (fun u hu => flat_of_not_union (hmember u hu).1) ?_
  exact fun hlen => ⟨hlen, hmember, pairwise_flatten ts⟩

theorem properAlternatives_unionOf (h : ∀ t ∈ ts, t.Shallow) :
    (unionOf ts).properAlternatives = flatten ts := by
  have hmember := fun u hu => not_isUnion_of_mem_flatten (u := u) h hu
  unfold unionOf
  match flatten ts, hmember with
  | [], _ => rfl
  | [u], hmember =>
    obtain ⟨hunion, hnever⟩ := hmember u (by simp)
    exact properAlternatives_eq_self hunion hnever
  | u :: v :: us, hmember =>
    refine List.filter_eq_self.mpr fun m hm => ?_
    simp [(hmember m hm).2]

end ScriptTyping.Ty
