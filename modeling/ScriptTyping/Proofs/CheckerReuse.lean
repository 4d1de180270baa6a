import ScriptTyping.Assignable.Checker
import ScriptTyping.Proofs.RelationDepth

/-!
# A checker comes back to where it stood

A check moves the counter and moves it back, whatever it answers and wherever it stops. So it
answers what the relation answers with the steps that are left above the counter: a lower counter
confirms no less, and a checker that has answered many questions answers the next one as a fresh
one would.
-/

namespace ScriptTyping.Checker

variable {ds : Definitions} {depth : Nat}

/-- The computation gives this answer and leaves the counter where it stood. -/
def Answers (depth : Nat) (m : Counted Bool) (answer : Bool) : Prop :=
  m.run depth = (answer, depth)

namespace Answers

theorem pure (answer : Bool) : Answers depth (Pure.pure answer) answer := rfl

theorem after_eq {m : Counted Bool} {answer : Bool} (h : Answers depth m answer) :
    (m.run depth).2 = depth :=
  congrArg Prod.snd h

theorem of_after {m : Counted Bool} (h : (m.run depth).2 = depth) :
    Answers depth m (m.run depth).1 :=
  Prod.ext rfl h

theorem and {m n : Counted Bool} {a b : Bool} (hm : Answers depth m a)
    (hn : a = true → Answers depth n b) :
    Answers depth (do if ← m then n else Pure.pure false) (a && b) := by
  unfold Answers at hm ⊢
  simp only [StateT.run_bind, hm]
  cases a with
  | true => exact hn rfl
  | false => rfl

theorem all {α : Type} {ask : α → Counted Bool} {answer : α → Bool}
    (h : ∀ a, Answers depth (ask a) (answer a)) (as : List α) :
    Answers depth (as.allM ask) (as.all answer) := by
  induction as with
  | nil => rfl
  | cons a as ih =>
    unfold Answers at ih ⊢
    simp only [List.allM, StateT.run_bind, show (ask a).run depth = _ from h a, List.all_cons]
    cases answer a with
    | true => exact ih
    | false => rfl

theorem any {α : Type} {ask : α → Counted Bool} {answer : α → Bool}
    (h : ∀ a, Answers depth (ask a) (answer a)) (as : List α) :
    Answers depth (as.anyM ask) (as.any answer) := by
  induction as with
  | nil => rfl
  | cons a as ih =>
    unfold Answers at ih ⊢
    simp only [List.anyM, StateT.run_bind, show (ask a).run depth = _ from h a, List.any_cons]
    cases answer a with
    | true => rfl
    | false => exact ih

end Answers

/-! ## One step, for checks of the parts that come back -/

section Step

variable {check : Ty → Ty → Counted Bool} {holds : Ty → Ty → Bool}
  (h : ∀ s t, Answers depth (check s t) (holds s t))

include h

theorem relatesBoth_answers (s t : Ty) :
    Answers depth (relatesBoth check s t) (Definitions.relatesBoth holds s t) := by
  rw [Definitions.relatesBoth_eq]
  exact (relatesBoth_run (h s t).after_eq).trans ((h s t).and fun _ => h t s)

theorem relatesArg_answers (v : Variance) (s t : Ty) :
    Answers depth (relatesArg check v s t) (Definitions.relatesArg holds v s t) := by
  cases v with
  | output => exact h s t
  | input => exact h t s
  | invariant => exact relatesBoth_answers h s t

theorem relatesArgs_answers (vs : List Variance) (ss ts : List Ty) :
    Answers depth (relatesArgs check vs ss ts) (Definitions.relatesArgs holds vs ss ts) := by
  induction ss generalizing vs ts with
  | nil => exact .pure true
  | cons s ss ih =>
    cases ts with
    | nil => exact .pure true
    | cons t ts => exact (relatesArg_answers h _ s t).and fun _ => ih vs.tail ts

theorem relatesNominal_answers (source : Ty) (id : DefId) (name : String)
    (args : Option (List Ty)) :
    Answers depth (relatesNominal ds check source id name args)
      (ds.relatesNominal holds source id name args) := by
  unfold relatesNominal Definitions.relatesNominal
  rcases ds.ancestorArgs? name source with _ | _ | sourceArgs
  · exact .pure false
  · cases args with
    | none => exact .pure true
    | some _ => exact .pure false
  · cases args with
    | none => exact .pure true
    | some targetArgs =>
      by_cases hlen : sourceArgs.length = targetArgs.length
      · simpa [hlen] using relatesArgs_answers h (ds.variances id) sourceArgs targetArgs
      · simpa [beq_false_of_ne hlen, hlen] using Answers.pure false

theorem relates_answers (source target : Ty) :
    Answers depth (relates ds check source target) (ds.relates holds source target) := by
  fun_cases relates ds check source target
  all_goals rw [Definitions.relates]
  -- The cases come in an order; an equation is used once the earlier patterns are ruled out.
  any_goals assumption
  any_goals exact .pure _
  · exact .all (fun m => h m target) _
  · exact .any (fun m => h source m) _
  · exact relatesNominal_answers h _ _ _ _
  · exact h _ _
  next ps r ps' r' =>
    rw [Bool.and_assoc]
    refine (h r r').and fun _ => ?_
    by_cases hlen : ps.length ≤ ps'.length
    · simpa [hlen] using Answers.all (fun p => h p.2.2 p.1.2) (ps.zip ps')
    · simpa [hlen] using Answers.pure false

end Step

/-! ## The whole check -/

section Levels

variable {steps : Nat} {source target : Ty}

theorem checkWithin_refused (hlimit : maxRelationDepth ≤ depth) :
    Answers depth (checkWithin ds steps source target) false := by
  cases steps with
  | zero => exact .pure false
  | succ steps =>
    rw [checkWithin]
    simp only [Answers, StateT.run_bind, StateT.run_get, pure_bind, if_pos hlimit]
    rfl

theorem checkWithin_deeper {answer : Bool} (hroom : depth < maxRelationDepth)
    (h : Answers (depth + 1) (relates ds (checkWithin ds steps) source target) answer) :
    Answers depth (checkWithin ds (steps + 1) source target) answer := by
  rw [checkWithin]
  unfold Answers at h ⊢
  simp only [StateT.run_bind, StateT.run_get, pure_bind, if_neg (Nat.not_le.mpr hroom),
    StateT.run_set, h]
  rfl

end Levels

/-- The counter decides how many nested steps are left, and has its value again at the end. Any
bound on the steps does that allows for as many. -/
theorem checkWithin_answers (ds : Definitions) {steps depth : Nat} (source target : Ty)
    (hsteps : maxRelationDepth - depth ≤ steps) :
    Answers depth (checkWithin ds steps source target)
      (ds.assignableWithin (maxRelationDepth - depth) source target) := by
  induction steps generalizing depth source target with
  | zero =>
    rw [Nat.le_zero.mp hsteps]
    exact .pure false
  | succ steps ih =>
    rcases Nat.lt_or_ge depth maxRelationDepth with hroom | hlimit
    · have hleft : maxRelationDepth - depth = maxRelationDepth - (depth + 1) + 1 := by omega
      rw [hleft]
      exact checkWithin_deeper hroom (relates_answers (fun s t => ih s t (by omega)) source target)
    · rw [Nat.sub_eq_zero_of_le hlimit]
      exact checkWithin_refused hlimit

theorem checkWithin_depth (ds : Definitions) (steps depth : Nat) (source target : Ty) :
    ((checkWithin ds steps source target).run depth).2 = depth := by
  induction steps generalizing depth source target with
  | zero => rfl
  | succ steps ih =>
    rcases Nat.lt_or_ge depth maxRelationDepth with hroom | hlimit
    · have hparts : ∀ s t, Answers (depth + 1) (checkWithin ds steps s t) _ :=
        fun s t => .of_after (ih (depth + 1) s t)
      exact (checkWithin_deeper hroom (relates_answers hparts source target)).after_eq
    · exact (checkWithin_refused hlimit).after_eq

/-- The checker relates two types both ways by two checks, equal types included. -/
theorem relatesBoth_checkWithin (ds : Definitions) (steps : Nat) (s t : Ty) :
    relatesBoth (checkWithin ds steps) s t = (do
      if ← checkWithin ds steps s t then checkWithin ds steps t s else pure false) :=
  StateT.ext fun depth => relatesBoth_run (checkWithin_depth ds steps depth s t)

theorem check_eq (c : Checker) (source target : Ty) :
    c.check source target =
      (c.definitions.assignableWithin (maxRelationDepth - c.depth) source target, c) := by
  have hrun := checkWithin_answers c.definitions source target
    (Nat.le_refl (maxRelationDepth - c.depth))
  unfold check
  rw [hrun]

theorem checkAll_eq (c : Checker) (questions : List (Ty × Ty)) :
    c.checkAll questions = (questions.map fun q => (c.check q.1 q.2).1, c) := by
  induction questions with
  | nil => rfl
  | cons q questions ih =>
    obtain ⟨source, target⟩ := q
    simp only [checkAll, check_eq, ih, List.map_cons]

/-- The limit only refuses: what is confirmed from a higher counter is confirmed from a lower one.
And a check leaves the checker as it was, so that one checker answers a list of questions as each
of them is answered alone. -/
theorem checker_reusable (ds : Definitions) :
    (∀ (source target : Ty) (low high : Nat), low ≤ high →
      (check ⟨ds, high⟩ source target).1 = true → (check ⟨ds, low⟩ source target).1 = true) ∧
    (∀ (source target : Ty) (depth : Nat), (check ⟨ds, depth⟩ source target).2 = ⟨ds, depth⟩) ∧
    ∀ questions : List (Ty × Ty),
      checkAll ⟨ds, 0⟩ questions = (questions.map fun q => ds.isAssignable q.1 q.2, ⟨ds, 0⟩) := by
  refine ⟨fun source target low high hle hhigh => ?_, fun source target depth => ?_,
    fun questions => ?_⟩
  · rw [check_eq] at hhigh ⊢
    exact Definitions.assignableWithin_mono (Nat.sub_le_sub_left hle _) hhigh
  · rw [check_eq]
  · rw [checkAll_eq]
    simp only [check_eq]
    rfl

/-- Each of the two is an ancestor of the other at arguments that grow with every link. -/
def growing : Definitions where
  defs := #[
    ⟨"Nest", some (.nominal 1 "Outer" (some [.nominal 0 "Nest" (some [.param ⟨"T", .output⟩])])),
      [], [⟨"T", .output⟩]⟩,
    ⟨"Outer", some (.nominal 0 "Nest" (some [.nominal 1 "Outer" (some [.param ⟨"T", .input⟩])])),
      [], [⟨"T", .input⟩]⟩]

def nestOf (t : Ty) : Ty := .nominal 0 "Nest" (some [t])

def outerOf (t : Ty) : Ty := .nominal 1 "Outer" (some [t])

def zeroLit : Ty := .ofLiteral (.number ⟨0⟩)

/-- Four nested steps: the two names, their arguments, the literal and its backing type. -/
theorem nest_confirmed_up_to_sixty :
    7 ≤ 60 ∧
    (check ⟨growing, 61⟩ (nestOf .number) (outerOf (nestOf zeroLit))).1 = false ∧
    (check ⟨growing, 60⟩ (nestOf .number) (outerOf (nestOf zeroLit))).1 = true ∧
    (check ⟨growing, 7⟩ (nestOf .number) (outerOf (nestOf zeroLit))).1 = true := by
  have hhigh : (check ⟨growing, 60⟩ (nestOf .number) (outerOf (nestOf zeroLit))).1 = true := by
    decide
  exact ⟨by decide, by decide, hhigh, (checker_reusable growing).1 _ _ 7 60 (by decide) hhigh⟩

end ScriptTyping.Checker
