import Mathlib.Data.List.Induction
import ScriptTyping.Proofs.FlatUnions

/-!
# The normal form of unions

A union is built from the alternatives of its members where they first occur. Types that are the
same stand for each other, though a NaN literal is not the same as itself; so a union that is built
on the way leaves no trace in the one that is built from it.
-/

namespace ScriptTyping.Ty

variable {t : Ty} {ms ts xs ys : List Ty}

/-! ## First occurrences -/

/-- The types that are not the same as one before them, in order. -/
def firstOccurrences (ts : List Ty) : List Ty :=
  (ts.zipIdx.filter fun p => !(ts.take p.2).any (· == p.1)).map (·.1)

theorem firstOccurrences_append_singleton (ts : List Ty) (t : Ty) :
    firstOccurrences (ts ++ [t]) =
      firstOccurrences ts ++ if ts.any (· == t) then [] else [t] := by
  have hbefore : ∀ p ∈ ts.zipIdx, (ts ++ [t]).take p.2 = ts.take p.2 := by
    intro p hp
    have hlt : p.2 < ts.length := by
      obtain ⟨-, hlt, -⟩ := List.mem_zipIdx (x := p.1) (i := p.2) hp
      omega
    exact List.take_append_of_le_length (Nat.le_of_lt hlt)
  have hold : (ts.zipIdx.filter fun p => !((ts ++ [t]).take p.2).any (· == p.1)) =
      ts.zipIdx.filter fun p => !(ts.take p.2).any (· == p.1) :=
    List.filter_congr fun p hp => by rw [hbefore p hp]
  unfold firstOccurrences
  rw [List.zipIdx_append, List.filter_append, List.map_append, hold]
  cases hany : ts.any (· == t) <;> simp [hany]

theorem any_distinct (ts : List Ty) (t : Ty) : (distinct ts).any (· == t) = ts.any (· == t) := by
  rw [Bool.eq_iff_iff, List.any_eq_true, List.any_eq_true]
  constructor
  · rintro ⟨k, hk, hkt⟩
    exact ⟨k, (mem_of_mem_foldl_addDistinct hk).resolve_left List.not_mem_nil, hkt⟩
  · rintro ⟨k, hk, hkt⟩
    exact exists_same_of_mem [] hk hkt

theorem distinct_eq_firstOccurrences (ts : List Ty) : distinct ts = firstOccurrences ts := by
  induction ts using List.reverseRecOn with
  | nil => rfl
  | append_singleton ts t ih =>
    have hlast : distinct (ts ++ [t]) = addDistinct (distinct ts) t := List.foldl_append
    rw [hlast, addDistinct, any_distinct, firstOccurrences_append_singleton, ih]
    split <;> simp

/-! ## Unions of unions -/

/-- How a type is put together from the members of a union. -/
inductive Joins : List Ty → Ty → Prop
  | never : Joins [] never
  | single {t : Ty} (hunion : t.isUnion = false) (hnever : t.isNever = false) : Joins [t] t
  | several {ms : List Ty} (hlength : 2 ≤ ms.length)
      (hmembers : ∀ m ∈ ms, m.isUnion = false ∧ m.isNever = false)
      (hpairs : ms.Pairwise fun t u => (t == u) = false) : Joins ms (union ms)

theorem joins_ofAlternatives (hmembers : ∀ m ∈ ms, m.isUnion = false ∧ m.isNever = false)
    (hpairs : ms.Pairwise fun t u => (t == u) = false) : Joins ms (ofAlternatives ms) := by
  match ms with
  | [] => exact .never
  | [t] =>
    obtain ⟨hunion, hnever⟩ := hmembers t (by simp)
    exact .single hunion hnever
  | t :: u :: ms => exact .several (by simp) hmembers hpairs

theorem joins_unionOf (h : ∀ t ∈ ts, t.Shallow) :
    Joins (firstOccurrences (ts.flatMap properAlternatives)) (unionOf ts) := by
  rw [← distinct_eq_firstOccurrences, ← flatten_eq]
  exact joins_ofAlternatives (fun m hm => not_isUnion_of_mem_flatten h hm) (pairwise_flatten ts)

theorem flatten_unionOf (xs : List Ty) (hys : ∀ t ∈ ys, t.Shallow) (zs : List Ty) :
    flatten (xs ++ [unionOf ys] ++ zs) = flatten (xs ++ ys ++ zs) := by
  rw [flatten_eq, flatten_eq]
  simp only [List.flatMap_append, List.flatMap_singleton, properAlternatives_unionOf hys,
    flatten_eq, distinct, List.foldl_append]
  congr 1
  exact foldl_addDistinct_distinct _ _

/-- A union is in normal form, with its members in the order of their first occurrence, and it does
not matter if some of them are joined before. -/
theorem unionOf_normal_associative (hxs : ∀ t ∈ xs, t.Shallow) (hys : ∀ t ∈ ys, t.Shallow)
    (zs : List Ty) :
    Joins (firstOccurrences (xs.flatMap properAlternatives)) (unionOf xs) ∧
      unionOf (xs ++ [unionOf ys] ++ zs) = unionOf (xs ++ ys ++ zs) := by
  refine ⟨joins_unionOf hxs, ?_⟩
  unfold unionOf
  exact congrArg ofAlternatives (flatten_unionOf xs hys zs)

def nan : Ty := ofLiteral (.number ⟨0x7FF8000000000000⟩)

def zero : Ty := ofLiteral (.number ⟨0⟩)

def negativeZero : Ty := ofLiteral (.number ⟨0x8000000000000000⟩)

/-- Of the two zeros the first is kept, and of two NaN literals both. -/
theorem zeros_joined_and_nans_kept :
    Joins [nan, zero, nan] (unionOf [nan, zero, union [negativeZero, nan]]) ∧
      unionOf ([nan, zero, union [negativeZero, nan]] ++ [unionOf [zero, string, nan]] ++ [null]) =
        unionOf ([nan, zero, union [negativeZero, nan]] ++ [zero, string, nan] ++ [null]) := by
  have hfirst : firstOccurrences
      ([nan, zero, union [negativeZero, nan]].flatMap properAlternatives) = [nan, zero, nan] := by
    decide
  have hxs : ∀ t ∈ [nan, zero, union [negativeZero, nan]], t.Shallow := by decide
  have hys : ∀ t ∈ [zero, string, nan], t.Shallow := by decide
  have h := unionOf_normal_associative hxs hys [null]
  rwa [hfirst] at h

end ScriptTyping.Ty
