import Mathlib.Algebra.GroupWithZero.Nat
import ScriptTyping.Tree.Builder

/-!
# The spans of a builder

Whatever is built, in whatever order, each node and each lambda parameter gets a span with a column
in it, and a free column comes before the next. As long as the columns can be counted in 32 bits,
no column is in two spans, so that a place tells the node.
-/

namespace ScriptTyping

namespace Tree

variable {t : Tree} {i : NodeIndex}

theorem size_push (t : Tree) (kind : NodeKind) (span : Span) :
    (t.push kind span).size = t.size + 1 := by
  simp [push, size]

theorem span_push_of_lt (h : i < t.size) (kind : NodeKind) (span : Span) :
    (t.push kind span).span i = t.span i := by
  have hne : i ≠ t.nodes.size := Nat.ne_of_lt h
  simp only [Tree.span, get?, push, Array.getElem?_push, if_neg hne]

theorem span_push_size (h : t.size < NodeIndex.absent) (kind : NodeKind) (span : Span) :
    (t.push kind span).span t.size = span := by
  have hne : t.nodes.size ≠ NodeIndex.absent := Nat.ne_of_lt h
  simp only [Tree.span, get?, push, size, Array.getElem?_push_size, if_neg hne, Option.map_some,
    Option.getD_some]

/-- The nodes of the first tree stand in the second where they stood, with the same spans. -/
structure SpansKept (t t' : Tree) : Prop where
  size : t.size ≤ t'.size
  span : ∀ i < t.size, t'.span i = t.span i

theorem SpansKept.refl (t : Tree) : t.SpansKept t := ⟨Nat.le_refl _, fun _ _ => rfl⟩

theorem SpansKept.trans {t' t'' : Tree} (h : t.SpansKept t') (h' : t'.SpansKept t'') :
    t.SpansKept t'' :=
  ⟨Nat.le_trans h.size h'.size, fun i hi =>
    (h'.span i (Nat.lt_of_lt_of_le hi h.size)).trans (h.span i hi)⟩

theorem SpansKept.push (t : Tree) (kind : NodeKind) (span : Span) :
    t.SpansKept (t.push kind span) :=
  ⟨by simp [size_push], fun _ hi => span_push_of_lt hi kind span⟩

end Tree

namespace Span

/-- The span is on the first line, where columns and indices are the same. -/
structure OnFirstLine (s : Span) : Prop where
  line_start : s.start.line = 1
  line_stop : s.stop.line = 1
  column_start : s.start.column = s.start.index
  column_stop : s.stop.column = s.stop.index

def Covers (s : Span) (index : Nat) : Prop := s.start.index ≤ index ∧ index < s.stop.index

theorem start_lt_stop {s : Span} (h : s.isEmpty = false) : s.start.index < s.stop.index := by
  simp only [isEmpty, length, beq_eq_false_iff_ne] at h
  omega

end Span

namespace Builder

/-- A call to a builder. A lambda is a node, whose parameters were made before. -/
inductive Call
  | node (kind : NodeKind)
  | letDeclaration (name : String) (initializer : NodeIndex)
  | genericTypeRef (name : String) (args : List NodeIndex)
  | param (name : String) (ascription : Option NodeIndex)

/-- What a call hands out. -/
inductive Made
  | node (i : NodeIndex)
  | param (param : LambdaParam)

/-- Where it stands: a node's span is in the tree. -/
def Made.span (t : Tree) : Made → Span
  | node i => t.span i
  | param p => p.span

def Made.node? : Made → Option NodeIndex
  | node i => some i
  | param _ => none

namespace Call

def width : Call → Nat
  | node kind => ownWidth kind
  | letDeclaration name _ => Builder.width name + 4
  | genericTypeRef name _ => Builder.width name + 2
  | param name _ => Builder.width name

def run (b : Builder) : Call → Made × Builder
  | node kind => (.node b.tree.size, b.node kind)
  | letDeclaration name initializer => (.node b.tree.size, b.letDeclaration name initializer)
  | genericTypeRef name args => (.node b.tree.size, b.genericTypeRef name args)
  | param name ascription =>
    let (b, p) := b.param name ascription
    (.param p, b)

end Call

/-- The calls in their order, with all that they hand out. -/
def run (b : Builder) : List Call → List Made × Builder
  | [] => ([], b)
  | c :: calls =>
    let (made, b) := c.run b
    let (rest, b) := b.run calls
    (made :: rest, b)

/-! ## One call -/

section OneCall

variable {b : Builder}

theorem Call.run_offset (c : Call) (b : Builder) :
    (c.run b).2.offset = b.offset + (columns c.width + 1) := by
  cases c <;> rfl

theorem Call.run_keeps (c : Call) (b : Builder) : b.tree.SpansKept (c.run b).2.tree := by
  cases c with
  | param => exact .refl b.tree
  | _ => exact .push b.tree _ _

theorem Call.run_span (c : Call) {t : Tree} (hsize : b.tree.size < NodeIndex.absent)
    (ht : (c.run b).2.tree.SpansKept t) : (c.run b).1.span t = b.span c.width := by
  have hadded : ∀ kind width, (b.tree.push kind (b.span width)).SpansKept t →
      t.span b.tree.size = b.span width := by
    intro kind width hkept
    rw [hkept.span b.tree.size (by simp [Tree.size_push])]
    exact Tree.span_push_size hsize kind _
  cases c with
  | param => rfl
  | _ => exact hadded _ _ ht

theorem Call.run_node (c : Call) (b : Builder) :
    (c.run b).1.node? = some b.tree.size ∧ (c.run b).2.tree.size = b.tree.size + 1 ∨
      (c.run b).1.node? = none ∧ (c.run b).2.tree.size = b.tree.size := by
  cases c with
  | param => exact Or.inr ⟨rfl, rfl⟩
  | _ => exact Or.inl ⟨rfl, Tree.size_push _ _ _⟩

/-! ## Columns without running over -/

theorem columns_toNat {width : Nat} (h : max width 1 < 2 ^ 32) :
    (columns width).toNat = max width 1 := by
  have hwidth : width.toUInt32.toNat = width := Nat.mod_eq_of_lt (by omega)
  change (if width.toUInt32 ≤ 1 then 1 else width.toUInt32).toNat = _
  split
  · rename_i hle
    rw [UInt32.le_iff_toNat_le, hwidth] at hle
    exact (Nat.max_eq_right hle).symm
  · rename_i hle
    rw [UInt32.le_iff_toNat_le, hwidth] at hle
    rw [hwidth]
    exact (Nat.max_eq_left (Nat.le_of_lt (Nat.not_le.mp hle))).symm

/-- The spans of texts of these widths in a row, with a free column after each. -/
def layout (column : Nat) : List Nat → List Span
  | [] => []
  | width :: widths =>
    let stop := column + max width 1
    ⟨⟨column, 1, column⟩, ⟨stop, 1, stop⟩⟩ :: layout (stop + 1) widths

/-- The columns of texts of these widths, with the free columns after them. -/
def extent (widths : List Nat) : Nat := (widths.map fun width => max width 1 + 1).sum

theorem extent_cons (width : Nat) (widths : List Nat) :
    extent (width :: widths) = max width 1 + 1 + extent widths := by
  simp [extent]

theorem length_le_extent (widths : List Nat) : 2 * widths.length ≤ extent widths := by
  induction widths with
  | nil => exact Nat.zero_le _
  | cons width widths ih =>
    rw [extent_cons, List.length_cons]
    omega

theorem span_eq {b : Builder} {width : Nat} (h : b.offset.toNat + max width 1 < 2 ^ 32) :
    b.span width = ⟨⟨b.offset.toNat, 1, b.offset.toNat⟩,
      ⟨b.offset.toNat + max width 1, 1, b.offset.toNat + max width 1⟩⟩ := by
  have hstop : (b.offset + columns width).toNat = b.offset.toNat + max width 1 := by
    rw [UInt32.toNat_add, columns_toNat (by omega), Nat.mod_eq_of_lt h]
  simp only [span, position, hstop]

theorem Call.run_offset_toNat (c : Call) (h : b.offset.toNat + max c.width 1 + 1 < 2 ^ 32) :
    (c.run b).2.offset.toNat = b.offset.toNat + max c.width 1 + 1 := by
  have hcolumns : (columns c.width + 1).toNat = max c.width 1 + 1 := by
    rw [UInt32.toNat_add, columns_toNat (by omega)]
    exact Nat.mod_eq_of_lt (by change max c.width 1 + 1 < _; omega)
  rw [run_offset, UInt32.toNat_add, hcolumns, Nat.mod_eq_of_lt (by omega), Nat.add_assoc]

end OneCall

/-! ## A run -/

theorem run_keeps (b : Builder) (calls : List Call) : b.tree.SpansKept (b.run calls).2.tree := by
  induction calls generalizing b with
  | nil => exact .refl b.tree
  | cons c calls ih => exact (c.run_keeps b).trans (ih (c.run b).2)

theorem run_nodes (b : Builder) (calls : List Call) :
    ∃ k, (b.run calls).2.tree.size = b.tree.size + k ∧
      (b.run calls).1.filterMap Made.node? = List.range' b.tree.size k := by
  induction calls generalizing b with
  | nil => exact ⟨0, rfl, rfl⟩
  | cons c calls ih =>
    obtain ⟨k, hsize, hnodes⟩ := ih (c.run b).2
    rcases c.run_node b with ⟨hnode, hone⟩ | ⟨hnode, hnone⟩
    · refine ⟨k + 1, ?_, ?_⟩
      · rw [run, hsize, hone]
        omega
      · rw [run, List.filterMap_cons_some hnode, hnodes, hone, List.range'_succ]
    · refine ⟨k, ?_, ?_⟩
      · rw [run, hsize, hnone]
      · rw [run, List.filterMap_cons_none hnode, hnodes, hnone]

theorem run_spans {b : Builder} (calls : List Call)
    (h : b.offset.toNat + extent (calls.map Call.width) < 2 ^ 32)
    (hsize : b.tree.size + calls.length < NodeIndex.absent) :
    (b.run calls).1.map (·.span (b.run calls).2.tree) =
      layout b.offset.toNat (calls.map Call.width) := by
  induction calls generalizing b with
  | nil => rfl
  | cons c calls ih =>
    rw [List.map_cons, extent_cons] at h
    rw [List.length_cons] at hsize
    have hoffset := c.run_offset_toNat (b := b) (by omega)
    have hgrown : (c.run b).2.tree.size ≤ b.tree.size + 1 := by
      rcases c.run_node b with ⟨-, hone⟩ | ⟨-, hnone⟩ <;> omega
    have hfirst := c.run_span (by omega) (run_keeps (c.run b).2 calls)
    have hrest := ih (b := (c.run b).2) (by omega) (by omega)
    rw [run, List.map_cons, List.map_cons, layout, hfirst, hrest, hoffset, span_eq (by omega)]

theorem run_append (b : Builder) (calls calls' : List Call) :
    (b.run (calls ++ calls')).2 = ((b.run calls).2.run calls').2 := by
  induction calls generalizing b with
  | nil => rfl
  | cons c calls ih => exact ih (c.run b).2

theorem run_params (b : Builder) (params : List (String × Option NodeIndex)) :
    b.run (params.map fun p => .param p.1 p.2) =
      ((b.params params).2.map Made.param, (b.params params).1) := by
  induction params generalizing b with
  | nil => rfl
  | cons p params ih =>
    rw [List.map_cons, run]
    simp only [Call.run, ih]
    rfl

theorem lambda_eq_run (b : Builder) (params : List (String × Option NodeIndex))
    (body : NodeIndex) : b.lambda params body = (b.run (params.map (fun p => .param p.1 p.2) ++
      [.node (.lambda (b.params params).2 body)])).2 := by
  rw [run_append, run_params]
  rfl

/-! ## Spans in a row -/

theorem length_layout (column : Nat) (widths : List Nat) :
    (layout column widths).length = widths.length := by
  induction widths generalizing column with
  | nil => rfl
  | cons width widths ih => rw [layout, List.length_cons, List.length_cons, ih]

theorem le_start_of_mem_layout {column : Nat} {widths : List Nat} {s : Span}
    (h : s ∈ layout column widths) : column ≤ s.start.index := by
  induction widths generalizing column with
  | nil => cases h
  | cons width widths ih =>
    rw [layout, List.mem_cons] at h
    rcases h with rfl | h
    · exact Nat.le_refl column
    · have hlater := ih h
      omega

theorem layout_onFirstLine {column : Nat} {widths : List Nat} {s : Span}
    (h : s ∈ layout column widths) : s.OnFirstLine ∧ s.isEmpty = false := by
  induction widths generalizing column with
  | nil => cases h
  | cons width widths ih =>
    rw [layout, List.mem_cons] at h
    rcases h with rfl | h
    · refine ⟨⟨rfl, rfl, rfl, rfl⟩, ?_⟩
      simp only [Span.isEmpty, Span.length, beq_eq_false_iff_ne]
      omega
    · exact ih h

theorem layout_pairwise (column : Nat) (widths : List Nat) :
    (layout column widths).Pairwise fun s s' => s.stop.index < s'.start.index := by
  induction widths generalizing column with
  | nil => exact .nil
  | cons width widths ih =>
    rw [layout]
    refine .cons (fun s hs => ?_) (ih _)
    exact Nat.lt_of_succ_le (le_start_of_mem_layout hs)

theorem layout_disjoint (column : Nat) (widths : List Nat) :
    (layout column widths).Pairwise fun s s' => ∀ index, ¬ (s.Covers index ∧ s'.Covers index) := by
  refine (layout_pairwise column widths).imp ?_
  rintro s s' hlt index ⟨⟨-, hstop⟩, ⟨hstart, -⟩⟩
  omega

theorem layout_nodup (column : Nat) (widths : List Nat) : (layout column widths).Nodup := by
  refine (layout_pairwise column widths).imp_of_mem ?_
  rintro s s' hs - hlt rfl
  have hnonempty := Span.start_lt_stop (layout_onFirstLine hs).2
  omega

/-- A builder that is asked for no more columns than 32 bits can count gives every node and every
parameter a span of its own. The spans are not empty, they lie on the first line, and each starts
behind a free column after the one before, so that no two have a column in common. -/
theorem spans_apart (calls : List Call) (h : extent (calls.map Call.width) < 2 ^ 32) :
    let made := (run {} calls).1
    let tree := (run {} calls).2.tree
    let spans := made.map (·.span tree)
    spans.length = calls.length ∧
    made.filterMap Made.node? = List.range tree.size ∧
    (∀ s ∈ spans, s.OnFirstLine ∧ s.isEmpty = false) ∧
    (spans.Pairwise fun s s' => s.stop.index < s'.start.index) ∧
    (spans.Pairwise fun s s' => ∀ index, ¬ (s.Covers index ∧ s'.Covers index)) ∧
    spans.Nodup := by
  intro made tree spans
  have hlength : 2 * calls.length ≤ extent (calls.map Call.width) := by
    simpa using length_le_extent (calls.map Call.width)
  have hspans : spans = layout 0 (calls.map Call.width) := by
    refine run_spans (b := {}) calls ?_ ?_
    · change 0 + _ < _
      omega
    · change 0 + _ < 4294967295
      omega
  have hnodes : made.filterMap Made.node? = List.range tree.size := by
    obtain ⟨k, hsize, hnodes⟩ := run_nodes {} calls
    have hk : tree.size = k := hsize.trans (Nat.zero_add k)
    rw [hk, List.range_eq_range']
    exact hnodes
  rw [hspans]
  exact ⟨by rw [length_layout, List.length_map], hnodes, fun s hs => layout_onFirstLine hs,
    layout_pairwise 0 _, layout_disjoint 0 _, layout_nodup 0 _⟩

/-- `{ é: List<> -> "" }`, with the type named before and an identifier without a name after. -/
def sampleCalls : List Call :=
  [.genericTypeRef "List" [], .param "é" (some 0), .node (.literal (.value (.text ""))),
    .node (.lambda [⟨"é", some 0, ⟨⟨7, 1, 7⟩, ⟨9, 1, 9⟩⟩⟩] 1), .node (.identifier "")]

theorem sampleCalls_spans_apart : extent (sampleCalls.map Call.width) < 2 ^ 32 ∧
    (run {} sampleCalls).1.map (·.span (run {} sampleCalls).2.tree) = [⟨⟨0, 1, 0⟩, ⟨6, 1, 6⟩⟩, ⟨⟨7, 1, 7⟩, ⟨9, 1, 9⟩⟩,
      ⟨⟨10, 1, 10⟩, ⟨12, 1, 12⟩⟩, ⟨⟨13, 1, 13⟩, ⟨15, 1, 15⟩⟩, ⟨⟨16, 1, 16⟩, ⟨17, 1, 17⟩⟩] ∧
    ((run {} sampleCalls).1.map (·.span (run {} sampleCalls).2.tree)).Nodup := by
  have hextent : extent (sampleCalls.map Call.width) < 2 ^ 32 := by decide +kernel
  exact ⟨hextent, by decide +kernel, (spans_apart sampleCalls hextent).2.2.2.2.2⟩

end Builder

end ScriptTyping
