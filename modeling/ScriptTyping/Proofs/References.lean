import ScriptTyping.Proofs.Onward
import ScriptTyping.Proofs.Progress

/-!
# References between declarations

An identifier refers to a declaration if it means the declaration's symbol, narrowed or not. To
resolve a node its children are needed, and the declaration that it refers to; a way back to where
it began goes through references from one declaration to the next.
-/

namespace ScriptTyping

open Session Check Relation

variable {ctx : Context} {root c d e i n p q : NodeIndex} {base id o : Nat} {s₀ s s' : Session}
  {name : String} {table : SymbolTable}

namespace SymbolTable

variable {t : SymbolTable} {g : NodeIndex}

/-- The original of a narrowed symbol comes before it. -/
def OriginalsFirst (t : SymbolTable) : Prop :=
  ∀ {id o : Nat} {name g}, t.symbol? id = some ⟨name, .narrowed o g⟩ → o < id

/-- The symbol at the end of the narrowings is that of the declaration. -/
def StandsFor (t : SymbolTable) (id : SymbolId) (d : NodeIndex) : Prop :=
  ∃ name isConst, t.symbol? (t.unnarrowed id) = some ⟨name, .source d isConst⟩

theorem unnarrowedWithin_self (h : ∀ name o g, t.symbol? id ≠ some ⟨name, .narrowed o g⟩)
    (links : Nat) : t.unnarrowedWithin links id = id := by
  cases links with
  | zero => rfl
  | succ links =>
    unfold unnarrowedWithin
    split
    · rename_i hsym
      exact absurd hsym (h _ _ _)
    · rfl

theorem unnarrowedWithin_eq (h : t.OriginalsFirst) {links links' : Nat} (hlinks : id < links)
    (hlinks' : id < links') : t.unnarrowedWithin links id = t.unnarrowedWithin links' id := by
  induction links generalizing id links' with
  | zero => omega
  | succ links ih =>
    obtain ⟨links', rfl⟩ : ∃ k, links' = k + 1 := ⟨links' - 1, by omega⟩
    unfold unnarrowedWithin
    split
    · rename_i o g hsym
      have hlt := h hsym
      exact ih (by omega) (by omega)
    · rfl

theorem unnarrowed_original (h : t.OriginalsFirst)
    (hsym : t.symbol? id = some ⟨name, .narrowed o g⟩) : t.unnarrowed id = t.unnarrowed o := by
  have hid := symbol_lt hsym
  have hlt := h hsym
  unfold unnarrowed
  rw [unnarrowedWithin_eq h hid (show id < t.symbols.size + 1 by omega)]
  conv => lhs; unfold unnarrowedWithin
  simp only [hsym]

theorem standsFor_original (h : t.OriginalsFirst)
    (hsym : t.symbol? id = some ⟨name, .narrowed o g⟩) : t.StandsFor id d ↔ t.StandsFor o d := by
  rw [StandsFor, StandsFor, unnarrowed_original h hsym]

theorem standsFor_iff (h : ∀ name o g, t.symbol? id ≠ some ⟨name, .narrowed o g⟩) :
    t.StandsFor id d ↔ ∃ name isConst, t.symbol? id = some ⟨name, .source d isConst⟩ := by
  rw [StandsFor, unnarrowed, unnarrowedWithin_self h]

end SymbolTable

/-! ## References -/

/-- The identifier `n` means the symbol of the declaration `d`, narrowed or not. -/
def RefersTo (ctx : Context) (nodes : NodeStates) (table : SymbolTable) (n d : NodeIndex) : Prop :=
  ∃ name sc id, ctx.tree.kind? n = some (.identifier name) ∧ nodes.scopes? n = some sc ∧
    table.resolve sc.scope name = some id ∧ table.StandsFor id d

/-- Below the declaration `d` there is an identifier that refers to `e`. -/
def PointsTo (ctx : Context) (root : NodeIndex) (nodes : NodeStates) (table : SymbolTable)
    (d e : NodeIndex) : Prop :=
  ctx.tree.Reaches root d ∧ ctx.tree.isDeclaration d = true ∧
    ∃ n, ctx.tree.Reaches d n ∧ RefersTo ctx nodes table n e

/-- What has to be resolved for a node: its children, and the declaration that it refers to. -/
def Needs (ctx : Context) (s : Session) (p q : NodeIndex) : Prop :=
  ctx.tree.Child p q ∨ RefersTo ctx s.nodes s.table p q

/-- Some declaration points back to itself. -/
def Cyclic (ctx : Context) (root : NodeIndex) (s : Session) : Prop :=
  ∃ d, TransGen (PointsTo ctx root s.nodes s.table) d d

theorem Session.Onward.refersTo_iff (h : s.Onward s') :
    RefersTo ctx s'.nodes s'.table n d ↔ RefersTo ctx s.nodes s.table n d := by
  simp only [RefersTo, h.table, h.scopes]

theorem Session.Onward.pointsTo_eq (h : s.Onward s') :
    PointsTo ctx root s'.nodes s'.table = PointsTo ctx root s.nodes s.table := by
  funext d e
  simp only [PointsTo, h.refersTo_iff]

namespace Layout

theorem originalsFirst (h : Layout ctx root base s₀) : s₀.table.OriginalsFirst :=
  fun hsym => (h.accounted.narrowed (h.base_le hsym (by simp)) hsym).2.2

theorem refersTo_declaration (h : Layout ctx root base s₀)
    (href : RefersTo ctx s₀.nodes s₀.table n d) :
    ctx.tree.Reaches root d ∧ ctx.tree.isDeclaration d = true := by
  obtain ⟨-, -, id, -, -, -, name, isConst, hsym⟩ := href
  obtain ⟨hroot, -, ascription, initializer, hk⟩ := h.source hsym
  exact ⟨hroot, by simp [Tree.isDeclaration, hk, NodeKind.isDeclaration]⟩

theorem refersTo_of_reads (h : Layout ctx root base s₀) {sc : NodeScopes}
    (hsc : s₀.nodes.scopes? i = some sc) (hread : Reads ctx s₀.table i sc.scope id)
    (hid : s₀.table.StandsFor id d) : RefersTo ctx s₀.nodes s₀.table i d := by
  induction hread with
  | meant hk hmeant => exact ⟨_, sc, _, hk, hsc, hmeant, hid⟩
  | original _ hsym ih => exact ih ((SymbolTable.standsFor_original h.originalsFirst hsym).mpr hid)

theorem typeTest_target (h : Layout ctx root base s₀)
    {g operand target : NodeIndex} (hsym : s₀.table.symbol? id = some ⟨name, .narrowed o g⟩)
    (hk : ctx.tree.kind? g = some (.typeTest operand target)) :
    ctx.tree.Reaches root target ∧ ctx.tree.isTypeRef target = true := by
  obtain ⟨-, htruths, -⟩ := h.accounted.narrowed (h.base_le hsym (by simp)) hsym
  have hg := (h.accounted.truths htruths).1
  have hchild : ctx.tree.Child g target := (Tree.child_of_kind hk).mpr (by simp [NodeKind.children])
  exact ⟨hg.tail hchild, (h.types g _ hg hk).1 target (by simp [NodeKind.typePlaces])⟩

/-! ## Ways from one declaration to the next -/

/-- The way from a declaration to a node that it needs, cut at the references. -/
theorem last_declaration (h : Layout ctx root base s₀) (hroot : ctx.tree.Reaches root d)
    (hd : ctx.tree.isDeclaration d = true) (hn : ReflTransGen (Needs ctx s₀) d n) :
    ∃ e, ReflTransGen (PointsTo ctx root s₀.nodes s₀.table) d e ∧ ctx.tree.Reaches root e ∧
      ctx.tree.isDeclaration e = true ∧ ctx.tree.Reaches e n := by
  induction hn with
  | refl => exact ⟨d, .refl, hroot, hd, .refl _ d⟩
  | @tail p q _ hpq ih =>
    obtain ⟨e, hde, hroote, he, hep⟩ := ih
    rcases hpq with hchild | href
    · exact ⟨e, hde, hroote, he, hep.tail hchild⟩
    · obtain ⟨hrootq, hq⟩ := h.refersTo_declaration href
      exact ⟨q, hde.tail ⟨hroote, he, p, hep, href⟩, hrootq, hq, .refl _ q⟩

theorem cyclic_of_back_reference (h : Layout ctx root base s₀)
    (hd : ctx.tree.isDeclaration d = true) (hn : ReflTransGen (Needs ctx s₀) d n)
    (href : RefersTo ctx s₀.nodes s₀.table n d) : Cyclic ctx root s₀ := by
  obtain ⟨e, hde, hroot, he, hen⟩ := h.last_declaration (h.refersTo_declaration href).1 hd hn
  exact ⟨d, TransGen.tail' hde ⟨hroot, he, n, hen, href⟩⟩

end Layout

/-! ## Nodes without a way back -/

/-- Every way through what the node needs comes to an end. -/
def Grounded (ctx : Context) (s : Session) (n : NodeIndex) : Prop :=
  Acc (fun q p => Needs ctx s p q) n

theorem Grounded.no_way_back (h : Grounded ctx s n) : ¬ TransGen (Needs ctx s) n n := by
  induction h with
  | intro n _ ih =>
    intro hloop
    obtain ⟨q, hnq, hqn⟩ := TransGen.head'_iff.mp hloop
    exact ih q hnq (TransGen.tail' hqn hnq)

theorem PointsTo.needs (h : PointsTo ctx root s.nodes s.table d e) :
    TransGen (Needs ctx s) d e := by
  obtain ⟨-, -, n, hn, href⟩ := h
  exact TransGen.tail' (ReflTransGen.mono (fun _ _ => Or.inl) _ _ hn) (Or.inr href)

theorem not_cyclic_of_grounded (h : ∀ n, ctx.tree.Reaches root n → Grounded ctx s n) :
    ¬ Cyclic ctx root s := by
  rintro ⟨d, hloop⟩
  obtain ⟨e, ⟨hroot, -⟩, -⟩ := TransGen.head'_iff.mp hloop
  refine (h d hroot).no_way_back ?_
  exact TransGen.closed (fun _ _ => PointsTo.needs) _ _ hloop

end ScriptTyping
