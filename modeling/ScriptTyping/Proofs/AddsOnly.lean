import ScriptTyping.Proofs.Checking
import ScriptTyping.Proofs.KeptTypes
import ScriptTyping.Proofs.ResolutionDepth

/-!
# Only additions

From start to return, every call of the resolver in a check only adds to what is known. That needs
each call to come at the right time, which is kept from call to call: a call at another time would
leave its mark on the outcome of the call around it, and there is none.
-/

namespace ScriptTyping

open Session Check

variable {ctx : Context} {root : NodeIndex} {base σ : Nat} {wanted : Option Ty}
  {s₀ s s' : Session} {table : SymbolTable} {c c' : Request} {resolve resolve' : Resolver}

/-- All that a resolution leaves as it was, and all that it only adds to. -/
structure Session.AddsOnly (s s' : Session) : Prop where
  table : s'.table = s.table
  depth : s'.depth = s.depth
  inProgress : s'.inProgress = s.inProgress
  diagnostics : s.diagnostics <+: s'.diagnostics
  resolution : ∀ n r, s.nodes.resolution? n = some r → s'.nodes.resolution? n = some r
  symbolType : ∀ id ty, s.symbolTypes.get? id = some ty → s'.symbolTypes.get? id = some ty

/-- The call comes at the right time: whatever has to be resolved before the node is. -/
structure Request.Due (ctx : Context) (root : NodeIndex) (wanted : Option Ty) (s₀ : Session)
    (c : Request) : Prop where
  held : Held ctx root wanted s₀ c.session
  reaches : ctx.tree.Reaches root c.node
  ready : c.session.Recorded c.node ∨ ctx.tree.isTypeRef c.node = true ∨
    Ready ctx root c.session c.node
  awaits : c.session.Awaits ctx root wanted c.node c.expected

namespace Request.Due

theorem outcome (h : c.Due ctx root wanted s₀) (hL : Layout ctx root base s₀) (levels : Nat) :
    (resolveWithin ctx levels c.node c.expected).After c.session
      (Outcome ctx root wanted s₀ c.node c.session) :=
  resolveWithin_spec hL levels h.held h.reaches h.ready h.awaits

theorem addsOnly (h : c.Due ctx root wanted s₀) (hL : Layout ctx root base s₀) (levels : Nat) :
    c.session.AddsOnly (resolveWithin ctx levels c.node c.expected c.session).2 := by
  have hout := h.outcome hL levels
  have hretains := resolveWithin_retains hL levels c.node c.expected c.session
    ⟨h.held.later.table, h.held.later.declared, h.held.later.scopes⟩ h.reaches
  obtain ⟨more, hmore⟩ := hout.later.diagnostics
  refine ⟨hout.later.table, hout.depth, hout.inProgress, ⟨more, hmore.symm⟩,
    fun n r hr => hout.later.resolution hr, fun id ty hty => ?_⟩
  by_cases hnarrowed : ∃ name o g, s₀.table.symbol? id = some ⟨name, .narrowed o g⟩
  · obtain ⟨name, o, g, hsym⟩ := hnarrowed
    refine hretains id ty (fun name' origin hsym' => ?_) hty
    rw [hsym] at hsym'
    cases hsym'
    exact ⟨by simp, by simp⟩
  · cases hsym : s₀.table.symbol? id with
    | none => exact hretains id ty (fun name origin hsym' => by simp [hsym] at hsym') hty
    | some sym =>
      obtain ⟨name, origin⟩ := sym
      refine hout.later.symbolType (h.held.later.table ▸ hsym) ?_ hty
      rintro o g rfl
      exact hnarrowed ⟨name, o, g, hsym⟩

end Request.Due

/-! ## The calls of one resolution -/

open Classical in
/-- The resolver, except that a call at the wrong time leaves its mark on the table. -/
noncomputable def Check.marking (ctx : Context) (root : NodeIndex) (wanted : Option Ty)
    (s₀ : Session) (resolve : Resolver) : Resolver :=
  fun k expected s =>
    if (Request.mk k expected s).Due ctx root wanted s₀ then resolve k expected s
    else (.unknown, { s with table := s₀.table.other })

theorem marking_resolves (hL : Layout ctx root base s₀) (below : Nat) :
    Resolves ctx root wanted s₀ (marking ctx root wanted s₀ (resolveWithin ctx below)) := by
  intro k expected s hheld hk hready hawaits
  unfold Check.After marking
  rw [if_pos ⟨hheld, hk, hready, hawaits⟩]
  exact resolveWithin_spec hL below hheld hk hready hawaits

theorem marking_marked {k : NodeIndex} {e : Option Ty} {t : Session}
    (h : ¬ (Request.mk k e t).Due ctx root wanted s₀) :
    (marking ctx root wanted s₀ resolve k e t).2.table ≠ s₀.table := by
  unfold marking
  rw [if_neg h]
  exact s₀.table.other_ne

section Node

variable {below : Nat} {sc : NodeScopes} {kind : NodeKind} (hL : Layout ctx root base s₀)
  (hc : c.Due ctx root wanted s₀) (hnot : ¬ c.session.Recorded c.node)
  (hsc : c.session.nodes.scopes? c.node = some sc) (hk : ctx.tree.kind? c.node = some kind)

include hL hc hnot hsc hk

theorem entered_spec (hresolve : Resolves ctx root wanted s₀ resolve) :
    (resolveKind ctx resolve c.node sc c.expected kind).After c.session.entered
      (Answer ctx root wanted c.node sc kind c.session.entered) :=
  resolveKind_spec hL hresolve (hc.held.setDepth (c.session.depth + 1)) hc.reaches
    ((hc.ready.resolve_left hnot).imp_right fun hr => hr.setDepth _) hnot hk
    ((hc.held.later.scopes _).symm.trans hsc) hc.awaits

/-- The type of a node hangs only on calls that come at the right time. -/
theorem entered_agrees (resolve' : Resolver)
    (hagree : ∀ k e t, (Request.mk k e t).Due ctx root wanted s₀ →
      resolve' k e t = resolveWithin ctx below k e t) :
    resolveKind ctx resolve' c.node sc c.expected kind c.session.entered =
      resolveKind ctx (marking ctx root wanted s₀ (resolveWithin ctx below)) c.node sc c.expected
        kind c.session.entered := by
  refine (resolveKind_asking c.node sc c.expected kind).same (fun t => t.table ≠ s₀.table)
    (fun htable _ hoff heq => hoff (htable.symm.trans heq)) ?_ ?_ fun hoff => hoff ?_
  · -- In a session with a mark it is the wrong time for every call.
    exact fun k e t ht => marking_marked fun hdue => ht hdue.held.later.table
  · intro k e t ht
    have hdue : (Request.mk k e t).Due ctx root wanted s₀ := by
      by_contra hwrong
      exact ht (marking_marked hwrong)
    rw [hagree k e t hdue]
    exact (if_pos hdue).symm
  · exact (entered_spec hL hc hnot hsc hk (marking_resolves hL below)).later.table.trans
      hc.held.later.table

theorem entered_due (h : Makes (fun resolve => resolveKind ctx resolve c.node sc c.expected kind)
      (resolveWithin ctx below) c.session.entered c') :
    c'.Due ctx root wanted s₀ := by
  obtain ⟨answer, hne⟩ := h
  by_contra hwrong
  have hreal := entered_agrees hL hc hnot hsc hk (resolveWithin ctx below) fun _ _ _ _ => rfl
  refine hne (Eq.trans (entered_agrees hL hc hnot hsc hk _ fun k e t hdue => ?_) hreal.symm)
  exact answering_of_ne fun heq => hwrong (heq ▸ hdue)

end Node

theorem Request.Due.nested {below : Nat} (hc : c.Due ctx root wanted s₀)
    (hL : Layout ctx root base s₀)
    (h : Makes (fun resolve => resolveNode ctx resolve c.node c.expected)
      (resolveWithin ctx below) c.session c') : c'.Due ctx root wanted s₀ := by
  obtain ⟨hnone, sc, kind, hsc, hk, hmakes⟩ := h.of_node
  have hnot : ¬ c.session.Recorded c.node := by
    rw [recorded_iff]
    rintro ⟨ty, hty⟩
    cases hnone.symm.trans hty
  exact entered_due hL hc hnot hsc hk hmakes

/-! ## The calls of a whole check -/

theorem resolveRestBy_agrees (hL : Layout ctx root base s₀)
    (hagree : ∀ k e t, (Request.mk k e t).Due ctx root wanted s₀ →
      resolve' k e t = Check.resolve ctx k e t) {done rest : List NodeIndex}
    (h : Idle ctx root wanted s₀ s) (hdone : ∀ x ∈ done, s.Recorded x)
    (hrest : ctx.tree.AncestorsFirst root done rest) :
    resolveRestBy resolve' rest s = resolveRestBy (Check.resolve ctx) rest s := by
  induction rest generalizing s done with
  | nil => rfl
  | cons i rest ih =>
    obtain ⟨hi, habove, hrest⟩ := hrest
    rw [resolveRestBy_cons, resolveRestBy_cons]
    split
    · have hrecorded : ∀ {a}, ctx.tree.Reaches root a → ctx.tree.Above a i → s.Recorded a :=
        fun ha hai => hdone _ (habove ha hai)
      have hdue : (Request.mk i none s).Due ctx root wanted s₀ :=
        ⟨h.held, hi, Or.inr (Or.inr (h.ready hrecorded)), .none⟩
      have hout := hdue.outcome hL ctx.options.maxResolutionDepth
      rw [hagree i none s hdue]
      refine ih (h.after hL hout hrecorded) ?_ hrest
      intro x hx
      rcases List.mem_cons.mp hx with rfl | hx
      · exact recorded_iff.mpr ⟨_, hout.recorded⟩
      · exact hout.later.recorded (hdone x hx)
    · rename_i hsome
      refine ih h ?_ hrest
      intro x hx
      rcases List.mem_cons.mp hx with rfl | hx
      · exact Option.ne_none_iff_exists'.mp (by simpa using hsome)
      · exact hdone x hx

theorem checkAssignable_idle (h : Idle ctx root wanted s₀ s) (i : NodeIndex) (source target : Ty) :
    (checkAssignable ctx i source target).After s fun _ s' => Idle ctx root wanted s₀ s' := by
  unfold checkAssignable
  split
  · exact h
  · exact h.report _

theorem wired_walked (hp : ctx.tree.Proper root) (hhost : table.HostScope σ) :
    Walked ctx root σ (.start ctx table) (wired ctx table root σ) ∧
      Accounted ctx root table.symbols.size (wired ctx table root σ) :=
  wire_spec hp hhost.wf hhost.lt

section Whole

variable (hp : ctx.tree.Proper root) (htypes : ctx.tree.TypesInPlace root)
  (hhost : table.HostScope σ)

include hp htypes hhost

theorem wired_layout : Layout ctx root table.symbols.size (wired ctx table root σ) := by
  obtain ⟨hwalked, hacc⟩ := wired_walked hp hhost
  exact hwalked.layout hp htypes hhost hacc

theorem resolveTree_agrees (hagree : ∀ k e t,
      (Request.mk k e t).Due ctx root wanted (wired ctx table root σ) →
      resolve' k e t = Check.resolve ctx k e t) :
    resolveTree ctx resolve' root wanted (wired ctx table root σ) =
      resolveTree ctx (Check.resolve ctx) root wanted (wired ctx table root σ) := by
  have hL := wired_layout hp htypes hhost
  obtain ⟨hwalked, -⟩ := wired_walked hp hhost
  have hidle : Idle ctx root wanted (wired ctx table root σ) (wired ctx table root σ) :=
    hwalked.idle
  have hnone : ∀ {a}, ctx.tree.Reaches root a → ctx.tree.Above a root →
      (wired ctx table root σ).Recorded a :=
    fun ha habove => absurd ha (hp.not_reaches_of_above ha habove)
  have hdue : (Request.mk root wanted (wired ctx table root σ)).Due ctx root wanted
      (wired ctx table root σ) :=
    ⟨hidle.held, .refl _ root, Or.inr (Or.inr (hidle.ready hnone)), fun _ t ht => .root ht⟩
  have hout := hdue.outcome hL ctx.options.maxResolutionDepth
  have hidle1 := hidle.after hL hout hnone
  have hrest : ∀ {s}, Idle ctx root wanted (wired ctx table root σ) s →
      resolveRestBy resolve' (ctx.tree.descendants root) s =
        resolveRestBy (Check.resolve ctx) (ctx.tree.descendants root) s := fun hidle =>
    resolveRestBy_agrees hL hagree hidle (by simp) hp.descendants_ancestorsFirst
  rw [resolveTree_apply, resolveTree_apply, hagree root wanted _ hdue]
  refine congrArg (fun rest : Unit × Session => (_, rest.2)) ?_
  cases wanted with
  | none => exact hrest hidle1
  | some target => exact hrest (checkAssignable_idle hidle1 root _ target)

theorem outer_due (h : Makes (fun resolve => resolveTree ctx resolve root wanted)
      (Check.resolve ctx) (wired ctx table root σ) c) :
    c.Due ctx root wanted (wired ctx table root σ) := by
  obtain ⟨answer, hne⟩ := h
  by_contra hwrong
  refine hne (resolveTree_agrees hp htypes hhost fun k e t hdue => ?_)
  exact answering_of_ne fun heq => hwrong (heq ▸ hdue)

theorem Called.due {levels : Nat} (h : Called ctx table root σ wanted levels c) :
    c.Due ctx root wanted (wired ctx table root σ) := by
  induction h with
  | outer h => exact outer_due hp htypes hhost h
  | nested _ h ih => exact ih.nested (wired_layout hp htypes hhost) h

/-- Every call of the resolver in a check only adds to what is known. Its depth and the levels that
are left make up the limit, so that a node is never entered beyond it. -/
theorem calls_add_only {levels : Nat} (h : Called ctx table root σ wanted levels c) :
    c.session.AddsOnly (resolveWithin ctx levels c.node c.expected c.session).2 ∧
      c.session.depth + levels = ctx.options.maxResolutionDepth ∧
      (0 < levels → c.session.entered.depth ≤ ctx.options.maxResolutionDepth) := by
  have hdue := h.due hp htypes hhost
  have hdepth : c.session.depth + levels = ctx.options.maxResolutionDepth := h.onLevel
  refine ⟨hdue.addsOnly (wired_layout hp htypes hhost) levels, hdepth, fun hlevels => ?_⟩
  have hentered : c.session.entered.depth = c.session.depth + 1 := rfl
  omega

end Whole

/-- `{ const a = null; a }`. -/
def readingContext : Context where
  env := .initial
  options := {}
  tree := ⟨#[⟨.literal .null, Span.empty⟩, ⟨.declaration "a" true none 0, Span.empty⟩,
    ⟨.identifier "a", Span.empty⟩, ⟨.block [1, 2], Span.empty⟩]⟩

def readingTable : SymbolTable := (SymbolTable.hostScope {} []).2

/-- The last statement, asked for when the declaration is done. -/
def readingRequest : Request where
  node := 2
  expected := none
  session := (resolveWithin readingContext 255 1 none
    (wired readingContext readingTable 3 0).entered).2

theorem readingRequest_called : Called readingContext readingTable 3 0 none 255 readingRequest := by
  have hroot : Called readingContext readingTable 3 0 none 256 _ := .root _ _ _ _ _
  refine .nested hroot ⟨(.unknown, readingRequest.session), fun heq => ?_⟩
  have hnone : (wired readingContext readingTable 3 0).nodes.type? 3 = none := by decide +kernel
  obtain ⟨sc, hsc⟩ : ∃ sc, (wired readingContext readingTable 3 0).nodes.scopes? 3 = some sc :=
    Option.isSome_iff_exists.mp (by decide +kernel)
  have htype : ∀ r : Resolver,
      (resolveNode readingContext r 3 none (wired readingContext readingTable 3 0)).1 =
        (r 2 none (r 1 none (wired readingContext readingTable 3 0).entered).2).1 :=
    fun r => by rw [resolveNode_apply hnone hsc rfl]; rfl
  have hreal : (resolveWithin readingContext 255 2 none readingRequest.session).1 ≠ .unknown := by
    decide +kernel
  have hfirst : answering (resolveWithin readingContext 255) readingRequest
      (.unknown, readingRequest.session) 1 none (wired readingContext readingTable 3 0).entered =
        resolveWithin readingContext 255 1 none (wired readingContext readingTable 3 0).entered :=
    answering_of_ne (by simp [readingRequest])
  have hsame := congrArg Prod.fst heq
  simp only [htype, hfirst] at hsame
  have hanswer := answering_self (resolveWithin readingContext 255) readingRequest
    (.unknown, readingRequest.session)
  exact hreal (hsame.symm.trans (congrArg Prod.fst hanswer))

/-- When the name is read its declaration has left a type, and the read keeps it. -/
theorem reading_adds_only :
    readingRequest.session.symbolTypes.get? 0 = some Ty.null ∧
      Called readingContext readingTable 3 0 none 255 readingRequest ∧
      readingRequest.session.AddsOnly
        (resolveWithin readingContext 255 2 none readingRequest.session).2 ∧
      readingRequest.session.depth + 255 = 256 ∧ readingRequest.session.entered.depth ≤ 256 := by
  have hp : readingContext.tree.Proper 3 := by
    apply Tree.Proper.of_slots <;> decide
  have htypes : readingContext.tree.TypesInPlace 3 := by
    apply Tree.TypesInPlace.of_nodes
    decide
  have hhost : readingTable.HostScope 0 := SymbolTable.hostScope_spec _
  obtain ⟨hadds, hdepth, hentered⟩ := calls_add_only hp htypes hhost readingRequest_called
  exact ⟨by decide +kernel, readingRequest_called, hadds, hdepth, hentered (by decide)⟩

end ScriptTyping
