import ScriptTyping.Assignable.Basic

/-!
# More steps answer no less

A question that is answered with yes within some number of nested steps is so within any larger
number: a step turns yes to the parts into yes to the whole, in whatever direction the parts are
compared.
-/

namespace ScriptTyping.Definitions

variable {ds : Definitions} {s t : Ty} {check check' : Ty → Ty → Bool}

/-- What the first check confirms, the second one does. -/
def Confirms (check check' : Ty → Ty → Bool) : Prop :=
  ∀ s t, check s t = true → check' s t = true

namespace Confirms

variable (h : Confirms check check')

include h

theorem relatesArg {v : Variance} (hst : relatesArg check v s t = true) :
    relatesArg check' v s t = true := by
  cases v with
  | output => exact h s t hst
  | input => exact h t s hst
  | invariant =>
    simp only [Definitions.relatesArg, relatesBoth_eq, Bool.and_eq_true] at hst ⊢
    exact ⟨h s t hst.1, h t s hst.2⟩

theorem relatesArgs {vs : List Variance} {ss ts : List Ty}
    (hst : relatesArgs check vs ss ts = true) : relatesArgs check' vs ss ts = true := by
  induction ss generalizing vs ts with
  | nil => simp [Definitions.relatesArgs]
  | cons s ss ih =>
    cases ts with
    | nil => simp [Definitions.relatesArgs]
    | cons t ts =>
      rw [Definitions.relatesArgs, Bool.and_eq_true] at hst ⊢
      exact ⟨h.relatesArg hst.1, ih hst.2⟩

theorem relatesNominal {id : DefId} {name : String} {args : Option (List Ty)}
    (hst : ds.relatesNominal check s id name args = true) :
    ds.relatesNominal check' s id name args = true := by
  unfold Definitions.relatesNominal at hst ⊢
  split at hst
  · cases hst
  · rfl
  · cases hst
  · rw [Bool.and_eq_true] at hst ⊢
    exact ⟨hst.1, h.relatesArgs hst.2⟩

theorem relates (hst : ds.relates check s t = true) : ds.relates check' s t = true := by
  unfold Definitions.relates at hst ⊢
  split at hst
  · rfl
  · exact hst
  · rfl
  · exact hst
  · exact hst
  · rw [List.all_eq_true] at hst ⊢
    exact fun m hm => h m _ (hst m hm)
  · rw [List.any_eq_true] at hst ⊢
    obtain ⟨m, hm, hsm⟩ := hst
    exact ⟨m, hm, h _ m hsm⟩
  · exact h.relatesNominal hst
  · exact h _ _ hst
  · simp only [Bool.and_eq_true, List.all_eq_true] at hst ⊢
    exact ⟨⟨h _ _ hst.1.1, hst.1.2⟩, fun p hp => h _ _ (hst.2 p hp)⟩
  · exact hst
  · exact hst
  · exact hst

end Confirms

theorem assignableWithin_mono {m n : Nat} (hle : m ≤ n)
    (hst : ds.assignableWithin m s t = true) : ds.assignableWithin n s t = true := by
  induction m generalizing n s t with
  | zero => simp [assignableWithin] at hst
  | succ m ih =>
    obtain ⟨n, rfl⟩ : ∃ k, n = k + 1 := ⟨n - 1, by omega⟩
    exact Confirms.relates (fun _ _ h => ih (Nat.le_of_succ_le_succ hle) h) hst

end ScriptTyping.Definitions
