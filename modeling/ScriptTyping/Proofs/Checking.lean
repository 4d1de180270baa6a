import ScriptTyping.Proofs.Resolution

/-!
# A whole check

The second phase starts from the layout of the first, resolves the root, and then whatever no
parent has asked for. Parents come first there, so each node is ready when its turn comes.
-/

namespace ScriptTyping

open Session Check

variable {ctx : Context} {root i k n : NodeIndex} {base σ : Nat} {wanted : Option Ty}
  {s₀ s s' : Session} {ty : Ty} {table : SymbolTable}

/-! ## Parents first -/

namespace Tree

variable {t : Tree}

/-- Whatever is above an entry of the list comes before it, or is already done. -/
def AncestorsFirst (t : Tree) (root : NodeIndex) : List NodeIndex → List NodeIndex → Prop
  | _, [] => True
  | done, i :: rest => t.Reaches root i ∧
      (∀ {a}, t.Reaches root a → t.Above a i → a ∈ done) ∧ t.AncestorsFirst root (i :: done) rest

theorem Proper.walk_ancestorsFirst (h : t.Proper root) {steps : Nat} {stack done : List NodeIndex}
    (hstack : ∀ i ∈ stack, t.Reaches root i ∧
      ∀ {a}, t.Reaches root a → t.Above a i → a ∈ done) :
    t.AncestorsFirst root done (t.walk steps stack) := by
  induction steps generalizing stack done with
  | zero => exact trivial
  | succ steps ih =>
    cases stack with
    | nil => exact trivial
    | cons i rest =>
      obtain ⟨hi, habove⟩ := hstack i (by simp)
      obtain ⟨node, hnode⟩ := h.present hi
      unfold walk
      simp only [hnode]
      refine ⟨hi, habove, ih fun c hc => ?_⟩
      rcases List.mem_append.mp hc with hc | hc
      · have hchild : t.Child i c := (child_of_kind (kind_of_get hnode)).mpr hc
        refine ⟨hi.tail hchild, fun {a} ha hac => ?_⟩
        rcases h.above_of_child hi hchild ha hac with rfl | hai
        · exact List.mem_cons_self
        · exact List.mem_cons_of_mem _ (habove ha hai)
      · obtain ⟨hc', hcabove⟩ := hstack c (by simp [hc])
        exact ⟨hc', fun ha hac => List.mem_cons_of_mem _ (hcabove ha hac)⟩

theorem Proper.descendants_ancestorsFirst (h : t.Proper root) :
    t.AncestorsFirst root [] (t.descendants root) := by
  refine h.walk_ancestorsFirst fun i hi => ?_
  rw [List.mem_singleton.mp hi]
  refine ⟨.refl t root, fun ha hroot => ?_⟩
  exact absurd ha (h.not_reaches_of_above ha hroot)

end Tree

/-! ## Between two resolutions that nobody has asked for -/

structure Idle (ctx : Context) (root : NodeIndex) (wanted : Option Ty) (s₀ s : Session) :
    Prop where
  held : Held ctx root wanted s₀ s
  idle : s.inProgress = []
  params : ∀ {id name l j}, s.table.symbol? id = some ⟨name, .parameter l j⟩ →
    s.symbolTypes.get? id ≠ none → s.Recorded l

namespace Idle

theorem ready (h : Idle ctx root wanted s₀ s)
    (habove : ∀ {a}, ctx.tree.Reaches root a → ctx.tree.Above a k → s.Recorded a) :
    Ready ctx root s k := by
  refine ⟨fun hd _ hdk => Or.inl (habove hd hdk), ?_, ?_⟩
  · intro x hx
    simp [h.idle] at hx
  · intro id name l j hsym _ hnot
    by_contra hset
    exact hnot (h.params hsym hset)

theorem after (h : Idle ctx root wanted s₀ s) (hL : Layout ctx root base s₀)
    (hout : Outcome ctx root wanted s₀ k s ty s')
    (habove : ∀ {a}, ctx.tree.Reaches root a → ctx.tree.Above a k → s.Recorded a) :
    Idle ctx root wanted s₀ s' := by
  refine ⟨hout.held, hout.inProgress.trans h.idle, ?_⟩
  intro id name l j hsym hset
  rw [hout.later.table] at hsym
  rcases hout.params hsym hset with hset | hrec | ⟨-, hlk, -⟩
  · exact hout.later.recorded (h.params hsym hset)
  · exact hrec
  · have hsym₀ : s₀.table.symbol? id = some ⟨name, .parameter l j⟩ := h.held.later.table ▸ hsym
    obtain ⟨hl, -⟩ := hL.accounted.parameter (hL.base_le hsym₀ (by simp)) hsym₀
    exact hout.later.recorded (habove hl hlk)

theorem report (h : Idle ctx root wanted s₀ s) (d : Diagnostic) :
    Idle ctx root wanted s₀ { s with diagnostics := s.diagnostics ++ [d] } :=
  ⟨h.held.step (.report s d) rfl (fun _ h => Or.inl h) (fun _ h => Or.inl h), h.idle, h.params⟩

end Idle

theorem resolveRest_spec (hL : Layout ctx root base s₀) {done rest : List NodeIndex}
    (h : Idle ctx root wanted s₀ s) (hdone : ∀ x ∈ done, s.Recorded x)
    (hrest : ctx.tree.AncestorsFirst root done rest) :
    (resolveRest ctx rest).After s fun _ s' => Idle ctx root wanted s₀ s' ∧
      Later ctx root wanted s s' := by
  induction rest generalizing s done with
  | nil => exact ⟨h, .refl s⟩
  | cons i rest ih =>
    obtain ⟨hi, habove, hrest⟩ := hrest
    unfold resolveRest
    simp only [after_bind, after_get]
    split
    · have hrecorded : ∀ {a}, ctx.tree.Reaches root a → ctx.tree.Above a i → s.Recorded a :=
        fun ha hai => hdone _ (habove ha hai)
      simp only [after_bind]
      refine (resolveWithin_spec hL _ h.held hi (Or.inr (Or.inr (h.ready hrecorded)))
        .none).mono ?_
      intro ty s1 hout
      refine (ih (h.after hL hout hrecorded) ?_ hrest).mono ?_
      · intro x hx
        rcases List.mem_cons.mp hx with rfl | hx
        · exact recorded_iff.mpr ⟨ty, hout.recorded⟩
        · exact hout.later.recorded (hdone x hx)
      · rintro - s' ⟨hidle, hlater⟩
        exact ⟨hidle, hout.later.trans hlater⟩
    · rename_i hsome
      refine ih h ?_ hrest
      intro x hx
      rcases List.mem_cons.mp hx with rfl | hx
      · exact Option.ne_none_iff_exists'.mp (by simpa using hsome)
      · exact hdone x hx

/-! ## Both phases -/

theorem Walked.layout (hp : ctx.tree.Proper root) (htypes : ctx.tree.TypesInPlace root)
    (hhost : table.HostScope σ) (h : Walked ctx root σ (.start ctx table) s)
    (hacc : Accounted ctx root table.symbols.size s) :
    Layout ctx root table.symbols.size s := by
  refine ⟨hp, htypes, hacc, ?_, h.rules, ?_, ?_, ?_⟩
  · intro id sym hlt hsym
    exact hhost.host (h.grows.table.symbol_of_lt hlt hsym)
  · intro n hn
    rw [NodeStates.scopes?, (h.frame hn).node]
    simp only [Session.start, NodeStates.initial, NodeStates.get?, Array.getElem?_replicate]
    split <;> rfl
  · intro n sc id name origin hn hsc hid hsym
    obtain ⟨sc', hsc', hsees⟩ := h.sees_iff hp hhost.wf hhost.lt hacc hn
    rw [hsc] at hsc'
    cases hsc'
    exact hsees hid hsym
  · intro id
    rw [h.grows.later.1]
    rfl

theorem Walked.hosts (h : Walked ctx root σ (.start ctx table) s)
    (hacc : Accounted ctx root table.symbols.size s) {id : Nat} {name : String} {c : Bool}
    (hsym : s.table.symbol? id = some ⟨name, .host ty c⟩) :
    table.symbol? id = some ⟨name, .host ty c⟩ := by
  refine h.grows.table.symbol_of_lt ?_ hsym
  by_contra hle
  exact hacc.host (Nat.le_of_not_lt hle) hsym

theorem Walked.idle (h : Walked ctx root σ (.start ctx table) s) : Idle ctx root wanted s s := by
  obtain ⟨hsymbolTypes, hdiagnostics, hprogress, -, hlimit⟩ := h.grows.later
  have hnone : ∀ {id}, s.symbolTypes.get? id = none := by
    intro id
    rw [hsymbolTypes]
    rfl
  refine ⟨⟨.refl s, ?_, ?_, fun _ hset => absurd hnone hset, fun _ hset => absurd hnone hset⟩,
    hprogress, fun _ hset => absurd hnone hset⟩
  · intro hexceeded
    rw [hlimit] at hexceeded
    cases hexceeded
  · intro x d hx
    rw [hprogress] at hx
    cases hx

/-- What a whole check has found since the first phase, with the type of the root. -/
structure Concluded (ctx : Context) (root : NodeIndex) (wanted : Option Ty) (table : SymbolTable)
    (ty : Ty) (s : Session) : Prop where
  layout : ∃ s₀, Layout ctx root table.symbols.size s₀ ∧ Later ctx root wanted s₀ s
  hosts : ∀ {id name ty c}, s.table.symbol? id = some ⟨name, .host ty c⟩ →
    table.symbol? id = some ⟨name, .host ty c⟩
  root : s.findings.type? root = some ty
  fits : s.diagnostics = [] → ∀ t, wanted = some t → Fits ctx ty t

theorem checkRoot_spec (hp : ctx.tree.Proper root) (htypes : ctx.tree.TypesInPlace root)
    (hhost : table.HostScope σ) :
    (checkRoot ctx root σ wanted).After (.start ctx table) (Concluded ctx root wanted table) := by
  unfold checkRoot
  simp only [after_bind]
  refine (wire_spec hp hhost.wf hhost.lt).mono ?_
  rintro - s₀ ⟨hwalked, hacc⟩
  have hL := hwalked.layout hp htypes hhost hacc
  have hidle : Idle ctx root wanted s₀ s₀ := hwalked.idle
  have hnone : ∀ {a}, ctx.tree.Reaches root a → ctx.tree.Above a root → s₀.Recorded a :=
    fun ha habove => absurd ha (hp.not_reaches_of_above ha habove)
  refine (resolveWithin_spec hL _ hidle.held (.refl _ root) (Or.inr (Or.inr (hidle.ready hnone)))
    fun _ t ht => .root ht).mono ?_
  intro ty s1 hout
  have hidle1 := hidle.after hL hout hnone
  have hfinish : ∀ {s2}, Idle ctx root wanted s₀ s2 → Later ctx root wanted s1 s2 →
      (s2.diagnostics = [] → ∀ t, wanted = some t → Fits ctx ty t) →
      (do resolveRest ctx (ctx.tree.descendants root); pure ty : Check Ty).After s2
        (Concluded ctx root wanted table) := by
    intro s2 hidle2 hlater2 hfits
    simp only [after_bind, after_pure]
    refine (resolveRest_spec hL hidle2 (by simp) hp.descendants_ancestorsFirst).mono ?_
    rintro - s3 ⟨hidle3, hlater3⟩
    exact ⟨⟨s₀, hL, hidle3.held.later⟩, fun hsym => hwalked.hosts hacc (hidle3.held.later.table ▸ hsym),
      (hlater2.trans hlater3).type hout.recorded,
      fun hclean => hfits (hlater3.clean hclean)⟩
  cases wanted with
  | none => exact hfinish hidle1 (.refl s1) (by simp)
  | some target =>
    simp only [after_bind]
    unfold checkAssignable
    split
    · rename_i hfits
      refine hfinish hidle1 (.refl s1) fun _ t ht => ?_
      cases ht
      exact fits_iff.mpr hfits
    · rw [after_reportAt]
      exact hfinish (hidle1.report _) (.report s1 _) (by simp)

theorem check_spec (wanted : Option Ty) (hp : ctx.tree.Proper root)
    (htypes : ctx.tree.TypesInPlace root) (hhost : table.HostScope σ) :
    ∃ ty s, check ctx table root σ wanted =
        (⟨root, ty, s.nodes, s.symbolTypes, s.diagnostics⟩, s.table) ∧
      Concluded ctx root wanted table ty s :=
  ⟨_, _, rfl, checkRoot_spec hp htypes hhost⟩

theorem NodeStates.scopes?_of_resolution {nodes : NodeStates} {r : Resolution}
    (h : nodes.resolution? n = some r) : nodes.scopes? n = some r.scopes := by
  obtain ⟨state, hstate, hr⟩ := Option.bind_eq_some_iff.mp h
  unfold scopes?
  cases state with
  | typed | generated =>
    cases hr
    rw [hstate]
    rfl
  | unresolved | wired => cases hr

theorem Concluded.reaches {ty' : Ty} (h : Concluded ctx root wanted table ty s)
    (hn : s.findings.type? n = some ty') : ctx.tree.Reaches root n := by
  obtain ⟨s₀, hL, hlater⟩ := h.layout
  obtain ⟨r, hr, -⟩ := Findings.type?_eq_some.mp hn
  by_contra hout
  have hsc : s.nodes.scopes? n = some r.scopes := NodeStates.scopes?_of_resolution hr
  rw [hlater.scopes n, hL.outside hout] at hsc
  cases hsc

theorem Concluded.rule (h : Concluded ctx root wanted table ty s) (hclean : s.diagnostics = [])
    (hn : ctx.tree.Reaches root n) :
    ∃ r kind, s.nodes.resolution? n = some r ∧ ctx.tree.kind? n = some kind ∧
      s.findings.TypingRule ctx n r kind := by
  obtain ⟨s₀, hL, hlater⟩ := h.layout
  have hrule : ∀ {n ty}, ctx.tree.Reaches root n → s.findings.type? n = some ty →
      ∃ r kind, s.nodes.resolution? n = some r ∧ ctx.tree.kind? n = some kind ∧
        s.findings.TypingRule ctx n r kind := by
    intro n ty hn hty
    obtain ⟨r, hr, -⟩ := Findings.type?_eq_some.mp hty
    obtain ⟨kind, hk, hrule⟩ := (hlater.trace hclean).rule (hL.unresolved hn) hr
    exact ⟨r, kind, hr, hk, hrule⟩
  induction hn with
  | refl => exact hrule (.refl _ root) h.root
  | tail hm hc ih =>
    obtain ⟨r, kind, -, hk, hparent⟩ := ih
    obtain ⟨ty, hty⟩ := hparent.child ((Tree.child_of_kind hk).mp hc)
    exact hrule (hm.tail hc) hty

end ScriptTyping
