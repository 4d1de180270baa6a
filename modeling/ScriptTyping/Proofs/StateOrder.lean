import ScriptTyping.NodeState

/-!
# The order of a node's states

A call is to take one node one state on. It is refused unless the node is in the one state that
comes before. So whatever calls are made, in any order and for any nodes, a node only goes forward,
and what is recorded of it once stays as it is.
-/

namespace ScriptTyping

/-- How many steps the state is from the beginning. -/
def NodeState.phase : NodeState → Nat
  | unresolved => 0
  | wired _ => 1
  | typed _ => 2
  | generated _ => 3

namespace NodeStates

variable {n n' m : NodeStates} {i j : NodeIndex} {st st' : NodeState}

@[simp] theorem size_set (n : NodeStates) (i : NodeIndex) (st : NodeState) :
    (n.set i st).size = n.size := by
  simp [size, set]

theorem set_set (n : NodeStates) (i : NodeIndex) (st st' : NodeState) :
    (n.set i st).set i st' = n.set i st' := by
  simp [set]

/-- A call that writes to one node. -/
inductive Write
  | assignScopes (i : NodeIndex) (scopes : NodeScopes)
  | record (i : NodeIndex) (ty : Ty) (binding : Binding)
  | markGenerated (i : NodeIndex)

namespace Write

variable {w : Write}

def node : Write → NodeIndex
  | assignScopes i _ => i
  | record i _ _ => i
  | markGenerated i => i

/-- The phase that the node has to be in. -/
def required : Write → Nat
  | assignScopes .. => 0
  | record .. => 1
  | markGenerated _ => 2

/-- The table after the call, if it is not refused. -/
def attempt? (n : NodeStates) : Write → Option NodeStates
  | assignScopes i scopes => n.assignScopes? i scopes
  | record i ty binding => n.record? i ty binding
  | markGenerated i => n.markGenerated? i

/-- The call on a table that is changed in place, with the answer whether it was accepted. -/
def perform (n : NodeStates) : Write → Bool × NodeStates
  | assignScopes i scopes =>
    match n.get? i with
    | some .unresolved => (true, n.set i (.wired scopes))
    | _ => (false, n)
  | record i ty binding =>
    match n.get? i with
    | some (.wired scopes) => (true, n.set i (.typed ⟨scopes, ty, binding⟩))
    | _ => (false, n)
  | markGenerated i =>
    match n.get? i with
    | some (.typed r) =>
      -- The state is taken out of the table; until it is put back, the node is unresolved.
      let taken := n.set i .unresolved
      (true, taken.set i (.generated r))
    | _ => (false, n)

/-- The one step that a call takes, with what it records. -/
inductive Next : Write → NodeState → NodeState → Prop
  | wired (i : NodeIndex) (scopes : NodeScopes) :
      Next (.assignScopes i scopes) .unresolved (.wired scopes)
  | typed (i : NodeIndex) (scopes : NodeScopes) (ty : Ty) (binding : Binding) :
      Next (.record i ty binding) (.wired scopes) (.typed ⟨scopes, ty, binding⟩)
  | generated (i : NodeIndex) (r : Resolution) :
      Next (.markGenerated i) (.typed r) (.generated r)

theorem Next.phase_source (h : w.Next st st') : st.phase = w.required := by
  cases h <;> rfl

theorem Next.phase_target (h : w.Next st st') : st'.phase = st.phase + 1 := by
  cases h <;> rfl

theorem Next.scopes (h : w.Next st st') {sc : NodeScopes} (hsc : st.scopes? = some sc) :
    st'.scopes? = some sc := by
  cases h with
  | wired => cases hsc
  | typed => exact hsc
  | generated => exact hsc

theorem Next.resolution (h : w.Next st st') {r : Resolution} (hr : st.resolution? = some r) :
    st'.resolution? = some r := by
  cases h with
  | wired => cases hr
  | typed => cases hr
  | generated => exact hr

theorem exists_next (h : st.phase = w.required) : ∃ st', w.Next st st' := by
  cases w with
  | assignScopes i scopes =>
    cases st with
    | unresolved => exact ⟨_, .wired i scopes⟩
    | _ => cases h
  | record i ty binding =>
    cases st with
    | wired scopes => exact ⟨_, .typed i scopes ty binding⟩
    | _ => cases h
  | markGenerated i =>
    cases st with
    | typed r => exact ⟨_, .generated i r⟩
    | _ => cases h

/-! ## One call -/

theorem perform_of_next (hst : n.get? w.node = some st) (h : w.Next st st') :
    w.perform n = (true, n.set w.node st') ∧ w.attempt? n = some (n.set w.node st') := by
  cases h with
  | wired i scopes =>
    have hi : n.get? i = some .unresolved := hst
    simp only [perform, attempt?, assignScopes?, hi, node, and_self]
  | typed i scopes ty binding =>
    have hi : n.get? i = some (.wired scopes) := hst
    simp only [perform, attempt?, record?, hi, node, and_self]
  | generated i r =>
    have hi : n.get? i = some (.typed r) := hst
    simp only [perform, attempt?, markGenerated?, hi, node, set_set, and_self]

theorem perform_of_other (h : ∀ st, n.get? w.node = some st → st.phase ≠ w.required) :
    w.perform n = (false, n) ∧ w.attempt? n = none := by
  constructor <;> cases w
  all_goals
    simp only [perform, attempt?, assignScopes?, record?, markGenerated?]
    split
    · -- The branch that accepts reads a state of the required phase.
      rename_i hi
      exact absurd rfl (h _ hi)
    · rfl

theorem perform_cases (w : Write) (n : NodeStates) :
    (∃ st st', n.get? w.node = some st ∧ w.Next st st' ∧
      w.perform n = (true, n.set w.node st') ∧ w.attempt? n = some (n.set w.node st')) ∨
    (∀ st, n.get? w.node = some st → st.phase ≠ w.required) ∧
      w.perform n = (false, n) ∧ w.attempt? n = none := by
  by_cases h : ∃ st, n.get? w.node = some st ∧ st.phase = w.required
  · obtain ⟨st, hst, hphase⟩ := h
    obtain ⟨st', hnext⟩ := exists_next hphase
    exact Or.inl ⟨st, st', hst, hnext, perform_of_next hst hnext⟩
  · have hother : ∀ st, n.get? w.node = some st → st.phase ≠ w.required :=
      fun st hst hphase => h ⟨st, hst, hphase⟩
    exact Or.inr ⟨hother, perform_of_other hother⟩

/-- Between `n` and `n'` the call's node has taken its step, and nothing else is different. -/
structure Advances (w : Write) (n n' : NodeStates) : Prop where
  size : n'.size = n.size
  others : ∀ i, i ≠ w.node → n'.get? i = n.get? i
  step : ∃ st st', n.get? w.node = some st ∧ n'.get? w.node = some st' ∧ w.Next st st'

theorem advances_set (hst : n.get? w.node = some st) (h : w.Next st st') :
    w.Advances n (n.set w.node st') where
  size := size_set n w.node st'
  others _ hi := get?_set_of_ne n (Ne.symm hi) st'
  step := ⟨st, st', hst, get?_set_self hst st', h⟩

end Write

/-! ## A run -/

/-- The table after a row of calls, whatever they answer. -/
def run (n : NodeStates) (calls : List Write) : NodeStates :=
  calls.foldl (fun n w => (w.perform n).2) n

/-- Every node that was there is there, in no earlier phase, and reads as it did. -/
structure Kept (n n' : NodeStates) : Prop where
  size : n'.size = n.size
  phase : ∀ i st, n.get? i = some st → ∃ st', n'.get? i = some st' ∧ st.phase ≤ st'.phase
  scopes : ∀ i sc, n.scopes? i = some sc → n'.scopes? i = some sc
  resolution : ∀ i r, n.resolution? i = some r → n'.resolution? i = some r

namespace Kept

theorem refl (n : NodeStates) : n.Kept n where
  size := rfl
  phase _ st h := ⟨st, h, Nat.le_refl st.phase⟩
  scopes _ _ h := h
  resolution _ _ h := h

theorem trans (h : n.Kept n') (h' : n'.Kept m) : n.Kept m where
  size := h'.size.trans h.size
  phase i st hst := by
    obtain ⟨st', hst', hle⟩ := h.phase i st hst
    obtain ⟨st'', hst'', hle'⟩ := h'.phase i st' hst'
    exact ⟨st'', hst'', Nat.le_trans hle hle'⟩
  scopes i sc hsc := h'.scopes i sc (h.scopes i sc hsc)
  resolution i r hr := h'.resolution i r (h.resolution i r hr)

end Kept

theorem Write.Advances.kept {w : Write} (h : w.Advances n n') : n.Kept n' := by
  obtain ⟨st, st', hst, hst', hnext⟩ := h.step
  refine ⟨h.size, fun i old hold => ?_, fun i sc hsc => ?_, fun i r hr => ?_⟩
  · by_cases hi : i = w.node
    · subst hi
      obtain rfl : st = old := Option.some.inj (hst.symm.trans hold)
      exact ⟨st', hst', by rw [hnext.phase_target]; exact Nat.le_succ _⟩
    · exact ⟨old, (h.others i hi).trans hold, Nat.le_refl _⟩
  · by_cases hi : i = w.node
    · subst hi
      unfold scopes? at hsc ⊢
      rw [hst] at hsc
      rw [hst']
      exact hnext.scopes hsc
    · unfold scopes?
      rw [h.others i hi]
      exact hsc
  · by_cases hi : i = w.node
    · subst hi
      unfold resolution? at hr ⊢
      rw [hst] at hr
      rw [hst']
      exact hnext.resolution hr
    · unfold resolution?
      rw [h.others i hi]
      exact hr

theorem perform_kept (w : Write) (n : NodeStates) : n.Kept (w.perform n).2 := by
  rcases w.perform_cases n with ⟨st, st', hst, hnext, hperform, -⟩ | ⟨-, hperform, -⟩
  · rw [hperform]
    exact (Write.advances_set hst hnext).kept
  · rw [hperform]
    exact .refl n

theorem run_kept (n : NodeStates) (calls : List Write) : n.Kept (n.run calls) := by
  induction calls generalizing n with
  | nil => exact .refl n
  | cons w calls ih => exact (perform_kept w n).trans (ih (w.perform n).2)

/-- After any calls on a table of any size, a call is accepted if and only if its node is there and
in the required phase. An accepted call takes that node one step and changes nothing else; a call
that is refused changes nothing at all. And what is recorded of a node at any time is read of it
after all calls that follow. -/
theorem states_forward_once (count : Nat) (earlier : List Write) :
    let n := (initial count).run earlier
    (∀ w : Write,
      ((w.perform n).1 = (w.attempt? n).isSome ∧ (w.perform n).2 = (w.attempt? n).getD n) ∧
      ((w.perform n).1 = true ↔ ∃ st, n.get? w.node = some st ∧ st.phase = w.required) ∧
      ((w.perform n).1 = false → (w.perform n).2 = n) ∧
      ((w.perform n).1 = true → w.Advances n (w.perform n).2)) ∧
    ∀ later, n.Kept (n.run later) := by
  intro n
  refine ⟨fun w => ?_, run_kept n⟩
  rcases w.perform_cases n with
    ⟨st, st', hst, hnext, hperform, hattempt⟩ | ⟨hother, hperform, hattempt⟩
  · rw [hperform, hattempt]
    exact ⟨⟨rfl, rfl⟩, ⟨fun _ => ⟨st, hst, hnext.phase_source⟩, fun _ => rfl⟩, nofun,
      fun _ => Write.advances_set hst hnext⟩
  · rw [hperform, hattempt]
    exact ⟨⟨rfl, rfl⟩, ⟨nofun, fun ⟨st, hst, hphase⟩ => absurd hphase (hother st hst)⟩,
      fun _ => rfl, nofun⟩

end NodeStates

end ScriptTyping
