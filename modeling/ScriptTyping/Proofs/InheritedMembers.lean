import ScriptTyping.Assignable.Basic
import ScriptTyping.Proofs.MemberTables
import ScriptTyping.Proofs.PlainDefinitions

/-!
# A subtype has the members of its supertypes

Assignability looks for a name on the way up the chain of bases, and then compares type arguments.
A member lookup goes up the same chain and asks the definitions. The definitions on the way do not
depend on the arguments, and the way up from an ancestor is the rest of the way.
-/

namespace ScriptTyping.Definitions

variable {ds : Definitions} {i j : DefId} {n m name : String} {as bs : Option (List Ty)}

/-! ## The lineage of a definition -/

/-- A definition and all that it inherits from, nearest first. -/
def lineage (ds : Definitions) (id : DefId) : List DefId := id :: ds.ancestors maxBaseLinks id

/-- The definition itself declares a member of the name. -/
def Declares (ds : Definitions) (id : DefId) (name : String) : Prop :=
  ∃ d, ds.get? id = some d ∧ ∃ m ∈ d.members, m.name = name

theorem contains_memberTable_nominal : (ds.memberTable (.nominal i n as)).contains name =
    (ds.ascend (fun id _ args => ds.membersNamed? name id args) (maxBaseLinks + 1)
      (.nominal i n as)).isSome := by
  rw [OrderedMap.contains, memberTable, get?_nominalTable]
  rfl

theorem isSome_ancestorArgs?_of_isAssignable
    (h : ds.isAssignable (.nominal i n as) (.nominal j m bs) = true) :
    (ds.ancestorArgs? m (.nominal i n as)).isSome = true := by
  have hstep : ds.relatesNominal (ds.assignableWithin 63) (.nominal i n as) j m bs = true := h
  unfold relatesNominal at hstep
  cases hfound : ds.ancestorArgs? m (.nominal i n as) with
  | some found => rfl
  | none => simp [hfound] at hstep

namespace Hierarchy

variable (h : ds.Hierarchy)

include h

theorem lineage_subset (hi : ds.nameOf? i = some n) (hj : j ∈ ds.lineage i) :
    ds.lineage j ⊆ ds.lineage i := by
  obtain ⟨d, hd, -⟩ := Option.map_eq_some_iff.mp hi
  intro e he
  rcases List.mem_cons.mp he with rfl | he
  · exact hj
  · rcases List.mem_cons.mp hj with rfl | hj
    · exact List.mem_cons_of_mem _ he
    · exact List.mem_cons_of_mem _ (h.ancestors_trans (get?_lt hd) hj he)

theorem contains_memberTable (hi : ds.nameOf? i = some n) :
    (ds.memberTable (.nominal i n as)).contains name = true ↔
      ∃ e ∈ ds.lineage i, ds.Declares e name := by
  rw [contains_memberTable_nominal]
  exact h.isSome_ascend (fun _ _ _ _ => isSome_membersNamed?) hi

theorem mem_lineage_of_isAssignable (hi : ds.nameOf? i = some n) (hj : ds.nameOf? j = some m)
    (hassignable : ds.isAssignable (.nominal i n as) (.nominal j m bs) = true) :
    j ∈ ds.lineage i := by
  have hnamed : ∀ id n args, ds.nameOf? id = some n →
      ((if n = m then some args else none : Option (Option (List Ty))).isSome = true ↔
        ds.nameOf? id = some m) := by
    intro id n args hid
    simp [hid]
  obtain ⟨e, he, hname⟩ :=
    (h.isSome_ascend hnamed hi).mp (isSome_ancestorArgs?_of_isAssignable hassignable)
  rwa [h.eq_of_nameOf hj hname]

end Hierarchy

/-- Both lookups find on a nominal type every name that is there on a type it goes to. The
definitions of the name may be others: a nearer level can declare it anew. -/
theorem subtype_has_members (h : ds.Hierarchy) (hi : ds.nameOf? i = some n)
    (hj : ds.nameOf? j = some m)
    (hassignable : ds.isAssignable (.nominal i n as) (.nominal j m bs) = true)
    (hname : (ds.memberTable (.nominal j m bs)).contains name = true) :
    (ds.memberTable (.nominal i n as)).contains name = true ∧
      ds.findMembers (.nominal i n as) name ≠ [] := by
  have hthere : (ds.memberTable (.nominal i n as)).contains name = true := by
    obtain ⟨e, he, hdeclares⟩ := (h.contains_memberTable hj).mp hname
    have hmem := h.mem_lineage_of_isAssignable hi hj hassignable
    exact (h.contains_memberTable hi).mpr ⟨e, h.lineage_subset hi hmem he, hdeclares⟩
  refine ⟨hthere, fun hnil => ?_⟩
  rw [findMembers_eq_getD] at hnil
  obtain ⟨defs, hdefs⟩ := Option.isSome_iff_exists.mp hthere
  rw [hdefs, Option.getD_some] at hnil
  exact get?_memberTable_ne_nil (hnil ▸ hdefs)

/-- A shelf is a box of lists, and a bookcase is a shelf of texts that has a `first` of its own. -/
def furniture : Definitions where
  defs := builtin.defs ++
    #[⟨"Box", none, [.property "first" (.param ⟨"A", .output⟩), .property "size" Ty.number],
        [⟨"A", .output⟩]⟩,
      ⟨"Shelf", some (.nominal 5 "Box" (some [Ty.listOf (.param ⟨"B", .output⟩)])), [],
        [⟨"B", .output⟩]⟩,
      ⟨"Bookcase", some (.nominal 6 "Shelf" (some [Ty.string])), [.property "first" Ty.string], []⟩]

theorem bookcase_has_members_of_box :
    furniture.isAssignable (.nominal 7 "Bookcase" none)
      (.nominal 5 "Box" (some [.union [Ty.listOf Ty.string, Ty.null]])) = true ∧
    furniture.findMembers (.nominal 7 "Bookcase" none) "size" ≠ [] := by
  have hbox : furniture.isAssignable (.nominal 7 "Bookcase" none)
      (.nominal 5 "Box" (some [.union [Ty.listOf Ty.string, Ty.null]])) = true := by decide
  exact ⟨hbox, (subtype_has_members ⟨by decide, by decide, by decide⟩ (by decide) (by decide) hbox
    (by decide)).2⟩

end ScriptTyping.Definitions
