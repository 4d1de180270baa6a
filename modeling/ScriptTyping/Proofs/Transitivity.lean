import ScriptTyping.Proofs.Assignability

/-!
# Assignability is transitive

The middle type is taken apart together with the outer ones, so the induction is on the three
heights together. It is on all orders of the three at once: inputs are compared the other way round.
-/

namespace ScriptTyping.Definitions

open Ty (Alike)

variable {ds : Definitions} {a b c s t : Ty} {check : Ty → Ty → Bool}

/-! ## Never, unknown and unions in a step -/

/-- The two types that stand at the ends of the relation. -/
def Corner (t : Ty) : Prop := t = .never ∨ t = .unknown

/-- Neither a corner nor a union. -/
def Simple : Ty → Prop
  | .unknown | .never | .union _ => False
  | _ => True

theorem corner_or_not (t : Ty) : Corner t ∨ (∃ members, t = .union members) ∨ Simple t := by
  cases t <;> simp [Corner, Simple]

theorem corner_trans (hcorner : Corner a ∨ Corner b ∨ Corner c)
    (hab : ds.relates check a b = true) (hbc : ds.relates check b c = true) :
    ds.relates check a c = true := by
  have never_left (t : Ty) : ds.relates check .never t = true := by simp [relates]
  have never_right (s : Ty) : ds.relates check s .never = true ↔ s = .never := by
    cases s <;> simp [relates]
  have unknown_left (t : Ty) : ds.relates check .unknown t = true ↔ t = .unknown := by
    cases t <;> simp [relates]
  have unknown_right (s : Ty) : ds.relates check s .unknown = true ↔ Corner s := by
    cases s <;> simp [relates, Corner]
  unfold Corner at *
  grind

theorem union_relates {members : List Ty} (ht : (∃ ts, t = .union ts) ∨ Simple t) :
    ds.relates check (.union members) t = true ↔ ∀ m ∈ members, check m t = true := by
  cases t <;> simp_all [relates, Simple]

theorem relates_to_union {members : List Ty} (hs : Simple s) :
    ds.relates check s (.union members) = true ↔ ∃ m ∈ members, check s m = true := by
  cases s <;> simp_all [relates, Simple]

/-! ## Types that fit together -/

/-- A stock of types: with a type it has the types inside. Its nominal types carry the names of
their definitions, and its literals of one value have alike backings. -/
structure Coherent (ds : Definitions) (types : Ty → Prop) : Prop where
  closed : ∀ t, types t → ∀ u ∈ t.components, types u
  named : ∀ id name args, types (.nominal id name args) → ds.nameOf? id = some name
  backed : ∀ v w x y, types (.literal v x) → types (.literal w y) → v.same w = true → Alike x y

/-- Transitivity where the three types are less high together than `n`. -/
def TransitiveBelow (ds : Definitions) (types : Ty → Prop) (n : Nat) : Prop :=
  ∀ a b c, types a → types b → types c → a.height + b.height + c.height < n →
    ds.relatesFully a b = true → ds.relatesFully b c = true → ds.relatesFully a c = true

/-! ## Arguments and parameters -/

theorem relatesArg_trans {u : Ty} {v : Variance}
    (hforth : check s t = true → check t u = true → check s u = true)
    (hback : check u t = true → check t s = true → check u s = true)
    (hst : relatesArg check v s t = true) (htu : relatesArg check v t u = true) :
    relatesArg check v s u = true := by
  cases v with
  | output => exact hforth hst htu
  | input => exact hback htu hst
  | invariant =>
    simp only [relatesArg, relatesBoth_eq, Bool.and_eq_true] at hst htu ⊢
    exact ⟨hforth hst.1 htu.1, hback htu.2 hst.2⟩

theorem relatesArgs_trans {vs : List Variance} {ss ts us : List Ty}
    (hlen : ss.length = ts.length)
    (htrans : ∀ s ∈ ss, ∀ t ∈ ts, ∀ u ∈ us,
      (check s t = true → check t u = true → check s u = true) ∧
      (check u t = true → check t s = true → check u s = true))
    (hst : relatesArgs check vs ss ts = true) (htu : relatesArgs check vs ts us = true) :
    relatesArgs check vs ss us = true := by
  induction ss generalizing vs ts us with
  | nil => simp [relatesArgs]
  | cons s ss ih =>
    cases ts with
    | nil => simp at hlen
    | cons t ts =>
      cases us with
      | nil => simp [relatesArgs]
      | cons u us =>
        rw [relatesArgs, Bool.and_eq_true] at hst htu ⊢
        obtain ⟨hforth, hback⟩ := htrans s (by simp) t (by simp) u (by simp)
        constructor
        · exact relatesArg_trans hforth hback hst.1 htu.1
        · exact ih (by simpa using hlen)
            (fun x hx y hy z hz => htrans x (by simp [hx]) y (by simp [hy]) z (by simp [hz]))
            hst.2 htu.2

theorem all_zip_trans {α : Type} {f : α × α → Bool} {xs ys zs : List α}
    (hlen : xs.length ≤ ys.length)
    (htrans : ∀ x ∈ xs, ∀ y ∈ ys, ∀ z ∈ zs, f (x, y) = true → f (y, z) = true → f (x, z) = true)
    (hxy : (xs.zip ys).all f = true) (hyz : (ys.zip zs).all f = true) :
    (xs.zip zs).all f = true := by
  induction xs generalizing ys zs with
  | nil => simp
  | cons x xs ih =>
    cases ys with
    | nil => simp at hlen
    | cons y ys =>
      cases zs with
      | nil => simp
      | cons z zs =>
        rw [List.zip_cons_cons, List.all_cons, Bool.and_eq_true] at hxy hyz ⊢
        constructor
        · exact htrans x (by simp) y (by simp) z (by simp) hxy.1 hyz.1
        · exact ih (by simpa using hlen)
            (fun u hu v hv w hw => htrans u (by simp [hu]) v (by simp [hv]) w (by simp [hw]))
            hxy.2 hyz.2

theorem TransitiveBelow.components {types : Ty → Prop}
    (hbelow : ds.TransitiveBelow types (a.height + b.height + c.height))
    (hc : ds.Coherent types) (ha : types a) (hb : types b) (hcc : types c) {x y z : Ty}
    (hx : x ∈ a.components) (hy : y ∈ b.components) (hz : z ∈ c.components) :
    (ds.relatesFully x y = true → ds.relatesFully y z = true → ds.relatesFully x z = true) ∧
    (ds.relatesFully z y = true → ds.relatesFully y x = true → ds.relatesFully z x = true) := by
  have hxa := Ty.height_lt_of_component hx
  have hyb := Ty.height_lt_of_component hy
  have hzc := Ty.height_lt_of_component hz
  have htx := hc.closed a ha x hx
  have hty := hc.closed b hb y hy
  have htz := hc.closed c hcc z hz
  exact ⟨hbelow x y z htx hty htz (by omega), hbelow z y x htz hty htx (by omega)⟩

theorem func_trans {types : Ty → Prop} {ps qs os : List (String × Ty)} {p q o : Ty}
    (hbelow : ds.TransitiveBelow types
      ((Ty.func ps p).height + (Ty.func qs q).height + (Ty.func os o).height))
    (hc : ds.Coherent types) (hp : types (.func ps p)) (hq : types (.func qs q))
    (ho : types (.func os o))
    (hpq : ds.relates ds.relatesFully (.func ps p) (.func qs q) = true)
    (hqo : ds.relates ds.relatesFully (.func qs q) (.func os o) = true) :
    ds.relates ds.relatesFully (.func ps p) (.func os o) = true := by
  simp only [relates, Bool.and_eq_true, decide_eq_true_eq] at hpq hqo ⊢
  obtain ⟨⟨hresult, hlen⟩, hparams⟩ := hpq
  obtain ⟨⟨hresult', hlen'⟩, hparams'⟩ := hqo
  refine ⟨⟨?_, by omega⟩, ?_⟩
  · exact (hbelow.components hc hp hq ho (.head _) (.head _) (.head _)).1 hresult hresult'
  · -- The parameters are compared from the outer type to the inner one.
    apply all_zip_trans hlen _ hparams hparams'
    intro x hx y hy z hz hyx hzy
    exact (hbelow.components hc hp hq ho (.tail _ (List.mem_map_of_mem hx))
      (.tail _ (List.mem_map_of_mem hy)) (.tail _ (List.mem_map_of_mem hz))).2 hzy hyx

namespace Plain

variable (h : ds.Plain) {types : Ty → Prop} (hc : ds.Coherent types)

include h

theorem eq_of_nameOf {i j : DefId} {name : String} (hi : ds.nameOf? i = some name)
    (hj : ds.nameOf? j = some name) : i = j :=
  h.hierarchy.eq_of_nameOf hi hj

theorem inherits_trans {i j : DefId} {n m l : String} (hi : ds.nameOf? i = some n)
    (hj : ds.nameOf? j = some m) (hnm : ds.Inherits i n m) (hml : ds.Inherits j m l) :
    ds.Inherits i n l := by
  obtain ⟨d, hd, -⟩ := Option.map_eq_some_iff.mp hi
  rcases hnm with rfl | ⟨e, he, hname⟩
  · rwa [h.eq_of_nameOf hi hj]
  · obtain rfl := h.eq_of_nameOf hname hj
    rcases hml with rfl | ⟨f, hf, hname'⟩
    · exact Or.inr ⟨e, he, hname⟩
    · exact Or.inr ⟨f, h.hierarchy.ancestors_trans (get?_lt hd) he hf, hname'⟩

include hc

theorem nominal_trans {i j k : DefId} {n m l : String} {as bs cs : Option (List Ty)}
    (hbelow : ds.TransitiveBelow types
      ((Ty.nominal i n as).height + (Ty.nominal j m bs).height + (Ty.nominal k l cs).height))
    (hi : types (.nominal i n as)) (hj : types (.nominal j m bs)) (hk : types (.nominal k l cs))
    (hab : ds.relates ds.relatesFully (.nominal i n as) (.nominal j m bs) = true)
    (hbc : ds.relates ds.relatesFully (.nominal j m bs) (.nominal k l cs) = true) :
    ds.relates ds.relatesFully (.nominal i n as) (.nominal k l cs) = true := by
  have hin := hc.named i n as hi
  have hjm := hc.named j m bs hj
  have hkl := hc.named k l cs hk
  simp only [relates, h.relatesNominal_iff] at hab hbc ⊢
  have hnm : ds.Inherits i n m := hab.elim (·.2) fun hargs => Or.inl hargs.1
  rcases hbc with ⟨hnone, hml⟩ | ⟨rfl, ts, us, rfl, rfl, hlen', hargs'⟩
  · exact Or.inl ⟨hnone, h.inherits_trans hin hjm hnm hml⟩
  · rcases hab with ⟨hnone, -⟩ | ⟨rfl, ss, _, rfl, hts, hlen, hargs⟩
    · simp at hnone
    · cases hts
      obtain rfl := h.eq_of_nameOf hjm hkl
      refine Or.inr ⟨rfl, ss, us, rfl, rfl, by omega, ?_⟩
      apply relatesArgs_trans hlen _ hargs hargs'
      intro x hx y hy z hz
      exact hbelow.components hc hi hj hk hx hy hz

/-- A simple target fixes the shape of a simple source, but for literals, which go to nominal
types as well. -/
theorem simple_trans (hbelow : ds.TransitiveBelow types (a.height + b.height + c.height))
    (hta : types a) (htb : types b) (htc : types c) (ha : Simple a) (hb : Simple b)
    (hsc : Simple c) (hab : ds.relates ds.relatesFully a b = true)
    (hbc : ds.relates ds.relatesFully b c = true) :
    ds.relates ds.relatesFully a c = true := by
  cases c with
  | func os o =>
    cases b with
    | func qs q =>
      cases a with
      | func ps p => exact func_trans hbelow hc hta htb htc hab hbc
      | _ => simp [relates, Simple] at hab ha
    | _ => simp [relates, Simple] at hbc hb
  | param p =>
    cases b with
    | param q => cases a <;> simp_all [relates, Simple]
    | _ => simp [relates, Simple] at hbc hb
  | literal w z =>
    cases b with
    | literal v y =>
      cases a with
      | literal u x =>
        rw [relates] at hab hbc ⊢
        exact LiteralValue.same_trans hab hbc
      | _ => simp [relates, Simple] at hab ha
    | _ => simp [relates, Simple] at hbc hb
  | nominal k l cs =>
    cases b with
    | nominal j m bs =>
      cases a with
      | nominal i n as => exact h.nominal_trans hc hbelow hta htb htc hab hbc
      | literal u x =>
        rw [relates] at hab ⊢
        rw [← h.relatesFully_eq] at hbc
        have htx := hc.closed _ hta x (.head _)
        exact hbelow x _ _ htx htb htc (by simp [Ty.height]) hab hbc
      | _ => simp [relates, Simple] at hab ha
    | literal v y =>
      cases a with
      | literal u x =>
        simp only [relates] at hab hbc ⊢
        have hxy := hc.backed u v x y hta htb hab
        rwa [h.relatesFully_congr hxy (.refl _)]
      | _ => simp [relates, Simple] at hab ha
    | _ => simp [relates, Simple] at hbc hb
  | _ => exact hsc.elim

/-- Unions are taken apart from the source to the target; what is left is simple. -/
theorem relatesFully_step (hbelow : ds.TransitiveBelow types (a.height + b.height + c.height))
    (hta : types a) (htb : types b) (htc : types c) (hab : ds.relatesFully a b = true)
    (hbc : ds.relatesFully b c = true) : ds.relatesFully a c = true := by
  rw [h.relatesFully_eq] at hab ⊢
  have hbc' := hbc
  rw [h.relatesFully_eq] at hbc'
  rcases corner_or_not a with hcorner | ha
  · exact corner_trans (Or.inl hcorner) hab hbc'
  rcases corner_or_not b with hcorner | hb
  · exact corner_trans (Or.inr (Or.inl hcorner)) hab hbc'
  rcases corner_or_not c with hcorner | hcc
  · exact corner_trans (Or.inr (Or.inr hcorner)) hab hbc'
  rcases ha with ⟨ms, rfl⟩ | ha
  · rw [union_relates hb] at hab
    rw [union_relates hcc]
    intro m hm
    have hlt := Ty.height_lt_of_component (t := .union ms) hm
    exact hbelow m b c (hc.closed _ hta m hm) htb htc (by omega) (hab m hm) hbc
  rcases hb with ⟨ms, rfl⟩ | hb
  · rw [relates_to_union ha] at hab
    obtain ⟨m, hm, ham⟩ := hab
    have hlt := Ty.height_lt_of_component (t := .union ms) hm
    rw [union_relates hcc] at hbc'
    rw [← h.relatesFully_eq]
    exact hbelow a m c hta (hc.closed _ htb m hm) htc (by omega) ham (hbc' m hm)
  rcases hcc with ⟨ms, rfl⟩ | hcc
  · rw [relates_to_union hb] at hbc'
    obtain ⟨m, hm, hbm⟩ := hbc'
    have hlt := Ty.height_lt_of_component (t := .union ms) hm
    rw [relates_to_union ha]
    rw [← h.relatesFully_eq] at hab
    exact ⟨m, hm, hbelow a b m hta htb (hc.closed _ htc m hm) (by omega) hab hbm⟩
  · exact h.simple_trans hc hbelow hta htb htc ha hb hcc hab hbc'

theorem relatesFully_trans (hta : types a) (htb : types b) (htc : types c)
    (hab : ds.relatesFully a b = true) (hbc : ds.relatesFully b c = true) :
    ds.relatesFully a c = true := by
  have hall : ∀ n, ds.TransitiveBelow types n := by
    intro n
    induction n with
    | zero =>
      intro a b c _ _ _ hlt
      omega
    | succ n ih =>
      intro a b c hta htb htc hlt
      apply h.relatesFully_step hc _ hta htb htc
      intro x y z hx hy hz hlt'
      exact ih x y z hx hy hz (by omega)
  exact hall _ a b c hta htb htc (Nat.lt_succ_self _) hab hbc

end Plain

/-! ## The limited relation -/

/-- A nominal type carries the name of its definition. -/
def carriesName (ds : Definitions) : Ty → Bool
  | .nominal id name _ => ds.nameOf? id == some name
  | _ => true

/-- Two literals of one value have alike backings. -/
def backedAlike : Ty → Ty → Bool
  | .literal v x, .literal w y => !v.same w || decide (Alike x y)
  | _, _ => true

theorem coherent_of_parts
    (hnamed : ∀ t ∈ a.parts ++ b.parts ++ c.parts, ds.carriesName t = true)
    (hbacked : ∀ s ∈ a.parts ++ b.parts ++ c.parts, ∀ t ∈ a.parts ++ b.parts ++ c.parts,
      backedAlike s t = true) : ds.Coherent (· ∈ a.parts ++ b.parts ++ c.parts) where
  closed t ht u hu := by
    simp only [List.mem_append] at ht ⊢
    exact ht.imp (Or.imp (Ty.component_mem_parts · hu) (Ty.component_mem_parts · hu))
      (Ty.component_mem_parts · hu)
  named _ _ _ ht := by simpa [carriesName] using hnamed _ ht
  backed v w x y hs ht hvw := by simpa [backedAlike, hvw] using hbacked _ hs _ ht

/-- The heights keep the three questions within the limit. Neither the variances nor the number of
arguments matter. -/
theorem isAssignable_trans (h : ds.Plain) (ha : a.height ≤ 32) (hb : b.height ≤ 32)
    (hc : c.height ≤ 32) (hnamed : ∀ t ∈ a.parts ++ b.parts ++ c.parts, ds.carriesName t = true)
    (hbacked : ∀ s ∈ a.parts ++ b.parts ++ c.parts, ∀ t ∈ a.parts ++ b.parts ++ c.parts,
      backedAlike s t = true)
    (hab : ds.isAssignable a b = true) (hbc : ds.isAssignable b c = true) :
    ds.isAssignable a c = true := by
  have hcoherent := coherent_of_parts hnamed hbacked
  have hlimit : maxRelationDepth = 64 := rfl
  rw [h.isAssignable_eq (by omega)] at hab hbc ⊢
  apply h.relatesFully_trans hcoherent _ _ _ hab hbc
  · simp [Ty.mem_parts_self]
  · simp [Ty.mem_parts_self]
  · simp [Ty.mem_parts_self]

/-- Two kinds of animals beside the built-in types. -/
def kennel : Definitions :=
  (builtin.register "Animal" none []).register "Dog" (some (.nominal 5 "Animal" none)) []

/-- The middle function takes animals; the outer ones take more, and only dogs. -/
theorem callback_assignable_through_middle :
    kennel.isAssignable
      (.func [("x", .union [.nominal 5 "Animal" none, Ty.null])]
        (Ty.listOf (Ty.ofLiteral (.text "a"))))
      (.func [("z", .nominal 6 "Dog" none), ("w", .unknown)] (.union [Ty.null, Ty.list])) = true :=
  isAssignable_trans
    (b := .func [("y", .nominal 5 "Animal" none)]
      (Ty.listOf (.union [Ty.ofLiteral (.text "a"), Ty.number])))
    ⟨by decide, by decide, by decide⟩ (by decide) (by decide) (by decide) (by decide) (by decide)
    (by decide) (by decide)

end ScriptTyping.Definitions
