import ScriptTyping.Assignable.Basic

/-!
# A checker for many questions

The checker counts how deep it is in the question at hand. It can be asked again afterwards.
-/

namespace ScriptTyping

structure Checker where
  definitions : Definitions
  depth : Nat := 0

namespace Checker

/-- A computation that reads and moves the depth. -/
abbrev Counted := StateM Nat

/-- Both directions; of two equal types one says it all. -/
def relatesBoth (check : Ty → Ty → Counted Bool) (s t : Ty) : Counted Bool := do
  if ← check s t then
    if s = t then pure true else check t s
  else pure false

/-- Where the first check leaves the counter as it was, answer and counter are those of the two
checks, also for equal types. -/
theorem relatesBoth_run {check : Ty → Ty → Counted Bool} {s t : Ty} {depth : Nat}
    (hback : ((check s t).run depth).2 = depth) :
    (relatesBoth check s t).run depth =
      (do if ← check s t then check t s else pure false : Counted Bool).run depth := by
  unfold relatesBoth
  by_cases hst : s = t
  · subst hst
    simp only [StateT.run_bind, if_pos]
    rcases hfirst : (check s s).run depth with ⟨answer, after⟩
    obtain rfl : after = depth := by simpa [hfirst] using hback
    cases answer with
    | true => exact hfirst.symm
    | false => rfl
  · simp only [if_neg hst]

def relatesArg (check : Ty → Ty → Counted Bool) : Variance → Ty → Ty → Counted Bool
  | .output, s, t => check s t
  | .input, s, t => check t s
  | .invariant, s, t => relatesBoth check s t

def relatesArgs (check : Ty → Ty → Counted Bool) :
    List Variance → List Ty → List Ty → Counted Bool
  | variances, s :: ss, t :: ts => do
    if ← relatesArg check (variances.headD .invariant) s t then
      relatesArgs check variances.tail ss ts
    else pure false
  | _, _, _ => pure true

def relatesNominal (ds : Definitions) (check : Ty → Ty → Counted Bool) (source : Ty) (id : DefId)
    (name : String) (args : Option (List Ty)) : Counted Bool :=
  match ds.ancestorArgs? name source, args with
  | none, _ => pure false
  | some _, none => pure true
  | some none, some _ => pure false
  | some (some sourceArgs), some targetArgs =>
    if sourceArgs.length ≠ targetArgs.length then pure false
    else relatesArgs check (ds.variances id) sourceArgs targetArgs

def relates (ds : Definitions) (check : Ty → Ty → Counted Bool) (source target : Ty) :
    Counted Bool :=
  match source, target with
  | .never, _ => pure true
  | _, .never => pure false
  | .unknown, .unknown => pure true
  | .unknown, _ => pure false
  | _, .unknown => pure false
  | .union members, _ => members.allM fun m => check m target
  | _, .union members => members.anyM fun m => check source m
  | .nominal .., .nominal id name args => relatesNominal ds check source id name args
  | .literal _ backing, .nominal .. => check backing target
  | .func ps r, .func ps' r' => do
    if ← check r r' then
      if ps.length ≤ ps'.length then (ps.zip ps').allM fun p => check p.2.2 p.1.2
      else pure false
    else pure false
  | .literal v _, .literal v' _ => pure (v.same v')
  | .param p, .param p' => pure (p.name == p'.name)
  | _, _ => pure false

/-- Refuses at the limit; otherwise goes one deeper, takes the step and comes back. The first
argument bounds the steps still to be taken. -/
def checkWithin (ds : Definitions) : Nat → Ty → Ty → Counted Bool
  | 0, _, _ => pure false
  | steps + 1, source, target => do
    let depth ← get
    if maxRelationDepth ≤ depth then pure false
    else
      set (depth + 1)
      let answer ← relates ds (checkWithin ds steps) source target
      modify (· - 1)
      pure answer

/-- The answer, and the checker for the next question. -/
def check (c : Checker) (source target : Ty) : Bool × Checker :=
  let (answer, depth) :=
    (checkWithin c.definitions (maxRelationDepth - c.depth) source target).run c.depth
  (answer, { c with depth := depth })

def checkAll (c : Checker) : List (Ty × Ty) → List Bool × Checker
  | [] => ([], c)
  | (source, target) :: rest =>
    let (answer, c) := c.check source target
    let (answers, c) := c.checkAll rest
    (answer :: answers, c)

end Checker

end ScriptTyping
