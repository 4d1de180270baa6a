import ScriptTyping.Proofs.Moves

/-!
# Onward

The second phase goes one way only. Symbols, scopes and declarations stay as they are, findings are
added at the end, and a node changes once, from wired to typed. A node that is wired when it is
asked for is typed afterwards, even at the depth limit.
-/

namespace ScriptTyping

open Check

variable {ctx : Context} {resolve : Resolver} {table : SymbolTable} {i n : NodeIndex}
  {sc : NodeScopes} {kind : NodeKind} {cs : List NodeIndex} {s s' s'' : Session}

namespace Session

structure Onward (s s' : Session) : Prop where
  table : s'.table = s.table
  declared : s'.declared = s.declared
  nodes : ∀ n, s'.nodes.get? n = s.nodes.get? n ∨
    ∃ r, s.nodes.get? n = some (.wired r.scopes) ∧ s'.nodes.get? n = some (.typed r)
  diagnostics : ∃ more, s'.diagnostics = s.diagnostics ++ more

namespace Onward

theorem refl (s : Session) : s.Onward s := ⟨rfl, rfl, fun _ => Or.inl rfl, [], by simp⟩

theorem trans (h : s.Onward s') (h' : s'.Onward s'') : s.Onward s'' := by
  refine ⟨h'.table.trans h.table, h'.declared.trans h.declared, ?_, ?_⟩
  · intro n
    rcases h'.nodes n with hsame | ⟨r, hwired, htyped⟩
    · rw [hsame]
      exact h.nodes n
    · rcases h.nodes n with hsame | ⟨r', -, htyped'⟩
      · exact Or.inr ⟨r, hsame ▸ hwired, htyped⟩
      · simp [htyped'] at hwired
  · obtain ⟨more, hmore⟩ := h.diagnostics
    obtain ⟨more', hmore'⟩ := h'.diagnostics
    exact ⟨more ++ more', by rw [hmore', hmore, List.append_assoc]⟩

theorem of_same (htable : s'.table = s.table) (hdeclared : s'.declared = s.declared)
    (hnodes : s'.nodes = s.nodes) (hdiagnostics : s'.diagnostics = s.diagnostics) : s.Onward s' :=
  ⟨htable, hdeclared, fun n => Or.inl (by rw [hnodes]), [], by rw [hdiagnostics, List.append_nil]⟩

theorem report (s : Session) (found : Diagnostic) :
    s.Onward { s with diagnostics := s.diagnostics ++ [found] } :=
  ⟨rfl, rfl, fun _ => Or.inl rfl, [found], rfl⟩

theorem mem_diagnostics (h : s.Onward s') {d : Diagnostic} (hd : d ∈ s.diagnostics) :
    d ∈ s'.diagnostics := by
  obtain ⟨more, hmore⟩ := h.diagnostics
  rw [hmore]
  exact List.mem_append_left _ hd

theorem scopes (h : s.Onward s') (n : NodeIndex) : s'.nodes.scopes? n = s.nodes.scopes? n := by
  unfold NodeStates.scopes?
  rcases h.nodes n with hsame | ⟨r, hwired, htyped⟩
  · rw [hsame]
  · rw [hwired, htyped]
    rfl

end Onward

end Session

open Session

/-! ## One node -/

theorem Session.onward_recorded (s : Session) (i : NodeIndex) (ty : Ty) (binding : Binding) :
    s.Onward (s.recorded i ty binding) := by
  refine ⟨rfl, rfl, ?_, [], by simp [Session.recorded]⟩
  intro n
  simp only [Session.recorded, NodeStates.record?]
  split
  · rename_i scopes hwired
    simp only [Option.getD_some]
    by_cases hin : i = n
    · subst hin
      exact Or.inr ⟨⟨scopes, ty, binding⟩, hwired, NodeStates.get?_set_self hwired _⟩
    · exact Or.inl (NodeStates.get?_set_of_ne _ hin _)
  · exact Or.inl rfl

theorem Session.resolution_recorded {ty : Ty} {binding : Binding} {r : Resolution}
    (h : (s.recorded i ty binding).nodes.resolution? n = some r) :
    s.nodes.resolution? n = some r ∨
      n = i ∧ ∃ sc, s.nodes.get? i = some (.wired sc) ∧ r = ⟨sc, ty, binding⟩ := by
  simp only [Session.recorded, NodeStates.record?] at h
  split at h
  · rename_i sc hwired
    rw [Option.getD_some, NodeStates.resolution?_set_typed hwired] at h
    split at h
    · rename_i heq
      exact Or.inr ⟨heq.symm, sc, hwired, (Option.some.inj h).symm⟩
    · exact Or.inl h
  · exact Or.inl h

theorem Session.onward_begun (s : Session) (i : NodeIndex) : s.Onward (s.begun i) :=
  .of_same rfl rfl rfl rfl

theorem Session.onward_ended (s : Session) (i : NodeIndex) (ty : Ty) : s.Onward (s.ended i ty) :=
  .of_same rfl rfl rfl rfl

/-- Every call of the resolver goes onward. -/
def GoesOnward (resolve : Resolver) : Prop :=
  ∀ k expected (s : Session), s.Onward (resolve k expected s).2

theorem Move.onward (h : Move ctx resolve table i sc cs s s')
    (hresolve : GoesOnward resolve) : s.Onward s' := by
  cases h with
  | visit s c expected => exact hresolve c expected s
  | demand s hread hsym hd => exact hresolve _ none s
  | target s hread hsym hk => exact hresolve _ none s
  | report s found => exact .report s found
  | circular s hread hsym hd found => exact .report s found
  | symbol => exact .of_same rfl rfl rfl rfl
  | parameter => exact .of_same rfl rfl rfl rfl

theorem Work.onward (h : Work ctx resolve table i sc cs s s')
    (hresolve : GoesOnward resolve) : s.Onward s' := by
  induction h with
  | start s => exact .refl s
  | move _ hm ih => exact ih.trans (hm.onward hresolve)

theorem Resolved.onward (h : Resolved ctx resolve i sc kind s s')
    (hresolve : GoesOnward resolve) : s.Onward s' := by
  cases h with
  | plain _ _ hwork _ => exact hwork.onward hresolve
  | @declaration order s s1 _ _ hwork ty =>
    exact (onward_begun s i).trans ((hwork.onward hresolve).trans (onward_ended s1 i ty))

theorem checkAssignable_onward (n : NodeIndex) (source target : Ty) (s : Session) :
    (checkAssignable ctx n source target).After s fun _ s' => s.Onward s' := by
  unfold checkAssignable
  split
  · exact .refl s
  · exact .report s _

/-! ## A whole resolution -/

theorem Session.onward_tooDeep (ctx : Context) (s : Session) (i : NodeIndex) :
    s.Onward (s.tooDeep ctx i) := by
  unfold tooDeep
  split
  · exact .refl s
  · exact (Onward.report s _).trans (.of_same rfl rfl rfl rfl)

theorem Session.tooDeep_nodes (ctx : Context) (s : Session) (i : NodeIndex) :
    (s.tooDeep ctx i).nodes = s.nodes := by
  unfold tooDeep
  split <;> rfl

theorem Session.tooDeep_exceeds (ctx : Context) (s : Session) (i : NodeIndex) :
    (s.tooDeep ctx i).depthExceeded = true := by
  unfold tooDeep
  split
  · assumption
  · rfl

theorem Call.onward {remaining : Nat} (h : Call ctx remaining i s s')
    (hbelow : ∀ below, remaining = below + 1 → GoesOnward (resolveWithin ctx below)) :
    s.Onward s' := by
  cases h with
  | done => exact .refl s
  | missing => exact .refl s
  | limit => exact (onward_tooDeep ctx s i).trans (onward_recorded _ i _ _)
  | @node below _ sc kind _ s1 _ _ _ hresolved ty binding =>
    have henter : s.Onward { s with depth := s.depth + 1 } := .of_same rfl rfl rfl rfl
    have hleave : s1.Onward { s1 with depth := s1.depth - 1 } := .of_same rfl rfl rfl rfl
    exact henter.trans ((hresolved.onward (hbelow below rfl)).trans
      (hleave.trans (onward_recorded _ i ty binding)))

theorem resolveWithin_onward (ctx : Context) (remaining : Nat) :
    GoesOnward (resolveWithin ctx remaining) := by
  refine resolveWithin_induction (fun remaining hbelow i expected s => ?_) remaining
  exact (resolveWithin_call ctx remaining i expected s).onward hbelow

/-! ## Nodes that are there -/

def Session.Typed (s : Session) (n : NodeIndex) : Prop := ∃ r, s.nodes.get? n = some (.typed r)

/-- The node has its scopes, and perhaps its type. -/
def Session.Wired (s : Session) (n : NodeIndex) : Prop :=
  (∃ sc, s.nodes.get? n = some (.wired sc)) ∨ s.Typed n

theorem Session.Onward.typed (h : s.Onward s') (hn : s.Typed n) : s'.Typed n := by
  obtain ⟨r, hr⟩ := hn
  rcases h.nodes n with hsame | ⟨r', hwired, -⟩
  · exact ⟨r, hsame.trans hr⟩
  · simp [hr] at hwired

theorem Session.Onward.wired (h : s.Onward s') (hn : s.Wired n) : s'.Wired n := by
  rcases hn with ⟨sc, hwired⟩ | htyped
  · rcases h.nodes n with hsame | ⟨r, -, htyped⟩
    · exact Or.inl ⟨sc, hsame.trans hwired⟩
    · exact Or.inr ⟨r, htyped⟩
  · exact Or.inr (h.typed htyped)

theorem Session.Wired.recorded (h : s.Wired i) (ty : Ty) (binding : Binding) :
    (s.recorded i ty binding).Typed i := by
  unfold Typed Session.recorded NodeStates.record?
  rcases h with ⟨sc, hwired⟩ | ⟨r, htyped⟩
  · simp only [hwired, Option.getD_some]
    exact ⟨_, NodeStates.get?_set_self hwired _⟩
  · simp only [htyped, Option.getD_none]
    exact ⟨r, rfl⟩

theorem Call.typed {remaining : Nat} (h : Call ctx remaining i s s') (hi : s.Wired i)
    (hpresent : ∃ node, ctx.tree.get? i = some node) : s'.Typed i := by
  cases h with
  | done hty =>
    rcases hi with ⟨sc, hwired⟩ | htyped
    · simp [NodeStates.type?, NodeStates.resolution?, hwired, NodeState.resolution?] at hty
    · exact htyped
  | missing hnone habsent =>
    obtain ⟨node, hnode⟩ := hpresent
    rcases hi with ⟨sc, hwired⟩ | ⟨r, htyped⟩
    · simp [NodeStates.scopes?, hwired, NodeState.scopes?, hnode] at habsent
    · simp [NodeStates.type?, NodeStates.resolution?, htyped, NodeState.resolution?] at hnone
  | limit => exact ((onward_tooDeep ctx s i).wired hi).recorded _ _
  | @node below _ sc kind _ s1 _ _ _ hresolved ty binding =>
    have hwired : s1.Wired i := (hresolved.onward (resolveWithin_onward ctx below)).wired hi
    exact Wired.recorded (s := { s1 with depth := s1.depth - 1 }) hwired ty binding

end ScriptTyping
