import Mathlib.Data.List.Forall2
import ScriptTyping.Ty.Basic

/-!
# Parts of a type

How deep a type is nested, and what stands inside it. Two types are alike if they differ at most
in literals of equal value.
-/

namespace ScriptTyping

/-! ## Values of literals -/

theorem Number.same_iff {a b : Number} : a.same b = true ↔
    a.isNaN = false ∧ b.isNaN = false ∧ (a = b ∨ a.isZero = true ∧ b.isZero = true) := by
  cases a
  cases b
  simp [same, and_assoc]

namespace LiteralValue

variable {u v w v' w' : LiteralValue}

theorem same_symm (h : v.same w = true) : w.same v = true := by
  cases v <;> cases w <;> simp only [same, Number.same_iff, beq_iff_eq] at h ⊢ <;> grind

theorem same_trans (huv : u.same v = true) (hvw : v.same w = true) : u.same w = true := by
  cases u <;> cases v <;> cases w <;>
    simp only [same, Number.same_iff, beq_iff_eq] at huv hvw ⊢ <;> grind

/-- A value is alike itself, a NaN too, and every value that is the same. -/
def alike (v w : LiteralValue) : Bool := decide (v = w) || v.same w

theorem alike_iff : v.alike w = true ↔ v = w ∨ v.same w = true := by simp [alike]

theorem alike_symm (h : v.alike w = true) : w.alike v = true :=
  alike_iff.mpr ((alike_iff.mp h).imp Eq.symm same_symm)

theorem alike_trans (huv : u.alike v = true) (hvw : v.alike w = true) : u.alike w = true := by
  rcases alike_iff.mp huv with rfl | huv
  · exact hvw
  · rcases alike_iff.mp hvw with rfl | hvw
    · exact alike_iff.mpr (Or.inr huv)
    · exact alike_iff.mpr (Or.inr (same_trans huv hvw))

theorem same_congr (hv : v.alike v' = true) (hw : w.alike w' = true) : v.same w = v'.same w' := by
  rw [alike_iff] at hv hw
  apply Bool.eq_iff_iff.mpr
  rcases hv with rfl | hv <;> rcases hw with rfl | hw
  · rfl
  · exact ⟨fun h => same_trans h hw, fun h => same_trans h (same_symm hw)⟩
  · exact ⟨fun h => same_trans (same_symm hv) h, fun h => same_trans hv h⟩
  · exact ⟨fun h => same_trans (same_symm hv) (same_trans h hw),
      fun h => same_trans hv (same_trans h (same_symm hw))⟩

end LiteralValue

namespace Ty

variable {t u c : Ty}

/-! ## Components -/

/-- What stands directly inside a type. -/
def components : Ty → List Ty
  | literal _ backing => [backing]
  | union members => members
  | func params result => result :: params.map (·.2)
  | nominal _ _ (some args) => args
  | _ => []

mutual
/-- How deep constructors nest. A literal counts like any other over its backing type. -/
def height : Ty → Nat
  | literal _ backing => height backing + 1
  | union members => heightList members + 1
  | func params result => max (height result) (heightParams params) + 1
  | nominal _ _ (some args) => heightList args + 1
  | unknown => 1
  | never => 1
  | nominal _ _ none => 1
  | param _ => 1

def heightList : List Ty → Nat
  | [] => 0
  | t :: ts => max (height t) (heightList ts)

def heightParams : List (String × Ty) → Nat
  | [] => 0
  | (_, t) :: ps => max (height t) (heightParams ps)
end

theorem height_le_heightList {ts : List Ty} (h : t ∈ ts) : t.height ≤ heightList ts := by
  induction ts with
  | nil => simp at h
  | cons u ts ih =>
    rw [heightList]
    rcases List.mem_cons.mp h with rfl | h
    · omega
    · have := ih h
      omega

theorem height_le_heightParams {ps : List (String × Ty)} {p : String × Ty} (h : p ∈ ps) :
    p.2.height ≤ heightParams ps := by
  induction ps with
  | nil => simp at h
  | cons q ps ih =>
    rw [heightParams]
    rcases List.mem_cons.mp h with rfl | h
    · omega
    · have := ih h
      omega

theorem height_lt_of_component (h : c ∈ t.components) : c.height < t.height := by
  cases t with
  | literal v backing =>
    rw [List.mem_singleton.mp h, height]
    omega
  | union members =>
    have hle : c.height ≤ heightList members := height_le_heightList h
    rw [height]
    omega
  | func params result =>
    rw [height]
    rcases List.mem_cons.mp h with rfl | h
    · omega
    · obtain ⟨p, hp, rfl⟩ := List.mem_map.mp h
      have := height_le_heightParams hp
      omega
  | nominal id name args =>
    cases args with
    | none => simp [components] at h
    | some args =>
      have hle : c.height ≤ heightList args := height_le_heightList h
      rw [height]
      omega
  | _ => simp [components] at h

theorem height_pos (t : Ty) : 0 < t.height := by
  cases t with
  | nominal id name args => cases args <;> simp [height]
  | _ => simp [height]

/-- Induction that does not ask for the kind of a type. -/
theorem induct_components {motive : Ty → Prop}
    (step : ∀ t, (∀ c ∈ t.components, motive c) → motive t) (t : Ty) : motive t := by
  induction h : t.height using Nat.strongRecOn generalizing t with
  | _ n ih =>
    refine step t fun c hc => ?_
    exact ih c.height (h ▸ height_lt_of_component hc) c rfl

/-! ## Parts -/

mutual
/-- The type itself and all that stands inside it. -/
def parts : Ty → List Ty
  | literal value backing => literal value backing :: parts backing
  | union members => union members :: partsList members
  | func params result => func params result :: (parts result ++ partsParams params)
  | nominal id name (some args) => nominal id name (some args) :: partsList args
  | unknown => [unknown]
  | never => [never]
  | nominal id name none => [nominal id name none]
  | param p => [param p]

def partsList : List Ty → List Ty
  | [] => []
  | t :: ts => parts t ++ partsList ts

def partsParams : List (String × Ty) → List Ty
  | [] => []
  | (_, t) :: ps => parts t ++ partsParams ps
end

theorem partsList_eq_flatMap (ts : List Ty) : partsList ts = ts.flatMap parts := by
  induction ts <;> simp [partsList, *]

theorem partsParams_eq_flatMap (ps : List (String × Ty)) :
    partsParams ps = (ps.map (·.2)).flatMap parts := by
  induction ps <;> simp [partsParams, *]

theorem parts_eq (t : Ty) : t.parts = t :: t.components.flatMap parts := by
  cases t with
  | nominal id name args =>
    cases args <;> simp [parts, components, partsList_eq_flatMap]
  | _ => simp [parts, components, partsList_eq_flatMap, partsParams_eq_flatMap]

theorem mem_parts_self (t : Ty) : t ∈ t.parts := by simp [parts_eq t]

theorem forall_parts_iff {P : Ty → Prop} :
    (∀ u ∈ t.parts, P u) ↔ P t ∧ ∀ c ∈ t.components, ∀ u ∈ c.parts, P u := by
  rw [parts_eq t, List.forall_mem_cons]
  refine and_congr_right fun _ => ?_
  constructor
  · intro h c hc u hu
    exact h u (List.mem_flatMap.mpr ⟨c, hc, hu⟩)
  · intro h u hu
    obtain ⟨c, hc, hu⟩ := List.mem_flatMap.mp hu
    exact h c hc u hu

theorem height_le_of_mem_parts (hu : u ∈ t.parts) : u.height ≤ t.height := by
  induction t using induct_components with
  | step t ih =>
    rw [parts_eq, List.mem_cons, List.mem_flatMap] at hu
    rcases hu with rfl | ⟨c, hc, hu⟩
    · exact Nat.le_refl _
    · exact Nat.le_of_lt (Nat.lt_of_le_of_lt (ih c hc hu) (height_lt_of_component hc))

theorem component_mem_parts (hu : u ∈ t.parts) (hc : c ∈ u.components) : c ∈ t.parts := by
  induction t using induct_components with
  | step t ih =>
    rw [parts_eq, List.mem_cons, List.mem_flatMap] at hu ⊢
    rcases hu with rfl | ⟨d, hd, hu⟩
    · exact Or.inr ⟨c, hc, mem_parts_self c⟩
    · exact Or.inr ⟨d, hd, ih d hd hu⟩

/-! ## Types that are alike -/

/-- Equal but for literals, whose values need only be alike. -/
def Alike (t u : Ty) : Prop := sameBy LiteralValue.alike t u = true

instance (t u : Ty) : Decidable (Alike t u) := inferInstanceAs (Decidable (_ = _))

theorem sameList_iff_forall₂ {eq : LiteralValue → LiteralValue → Bool} {ts us : List Ty} :
    sameList eq ts us = true ↔ List.Forall₂ (fun t u => sameBy eq t u = true) ts us := by
  induction ts generalizing us with
  | nil => cases us <;> simp [sameList]
  | cons t ts ih => cases us <;> simp [sameList, ih]

theorem sameParams_iff_forall₂ {eq : LiteralValue → LiteralValue → Bool} {ps qs : List (String × Ty)} :
    sameParams eq ps qs = true ↔
      List.Forall₂ (fun p q => p.1 = q.1 ∧ sameBy eq p.2 q.2 = true) ps qs := by
  induction ps generalizing qs with
  | nil => cases qs <;> simp [sameParams]
  | cons p ps ih => cases qs <;> simp [sameParams, ih]

theorem Alike.refl (t : Ty) : Alike t t := by
  unfold Alike
  induction t with
  | unknown | never | param => simp [sameBy]
  | literal v b ih => simp [sameBy, LiteralValue.alike, ih]
  | union ts ih =>
    rw [sameBy, sameList_iff_forall₂]
    exact List.forall₂_same.mpr ih
  | func ps r ihp ihr =>
    rw [sameBy, Bool.and_eq_true, sameParams_iff_forall₂]
    exact ⟨List.forall₂_same.mpr fun p hp => ⟨rfl, ihp p hp⟩, ihr⟩
  | nominal id name args ih =>
    cases args with
    | none => simp [sameBy]
    | some ts =>
      simp only [sameBy, beq_self_eq_true, Bool.and_self, Bool.true_and, sameList_iff_forall₂]
      exact List.forall₂_same.mpr (ih ts rfl)

theorem sameList_mono {eq eq' : LiteralValue → LiteralValue → Bool} {ts us : List Ty}
    (h : ∀ t ∈ ts, ∀ u, sameBy eq t u = true → sameBy eq' t u = true)
    (hsame : sameList eq ts us = true) : sameList eq' ts us = true := by
  induction ts generalizing us with
  | nil => cases us <;> simp_all [sameList]
  | cons t ts ih =>
    cases us with
    | nil => simp [sameList] at hsame
    | cons u us =>
      rw [sameList, Bool.and_eq_true] at hsame ⊢
      exact ⟨h t (by simp) u hsame.1, ih (fun x hx => h x (by simp [hx])) hsame.2⟩

theorem sameParams_mono {eq eq' : LiteralValue → LiteralValue → Bool} {ps qs : List (String × Ty)}
    (h : ∀ p ∈ ps, ∀ u, sameBy eq p.2 u = true → sameBy eq' p.2 u = true)
    (hsame : sameParams eq ps qs = true) : sameParams eq' ps qs = true := by
  induction ps generalizing qs with
  | nil => cases qs <;> simp_all [sameParams]
  | cons p ps ih =>
    cases qs with
    | nil => simp [sameParams] at hsame
    | cons q qs =>
      simp only [sameParams, Bool.and_eq_true] at hsame ⊢
      exact ⟨⟨hsame.1.1, h p (by simp) q.2 hsame.1.2⟩, ih (fun x hx => h x (by simp [hx])) hsame.2⟩

theorem sameBy_mono {eq eq' : LiteralValue → LiteralValue → Bool}
    (h : ∀ v w, eq v w = true → eq' v w = true) (hsame : sameBy eq t u = true) :
    sameBy eq' t u = true := by
  induction t generalizing u with
  | unknown | never | param => cases u <;> simp_all [sameBy]
  | literal v b ih =>
    cases u <;> simp only [sameBy, Bool.and_eq_true, Bool.false_eq_true] at hsame ⊢
    exact ⟨h _ _ hsame.1, ih hsame.2⟩
  | union ts ih =>
    cases u <;> simp only [sameBy, Bool.false_eq_true] at hsame ⊢
    exact sameList_mono (fun t ht u => ih t ht) hsame
  | func ps r ihp ihr =>
    cases u <;> simp only [sameBy, Bool.and_eq_true, Bool.false_eq_true] at hsame ⊢
    exact ⟨sameParams_mono (fun p hp u => ihp p hp) hsame.1, ihr hsame.2⟩
  | nominal id name args ih =>
    cases u with
    | nominal id' name' args' =>
      cases args with
      | none => cases args' <;> simp_all [sameBy]
      | some ts =>
        cases args' with
        | none => simp [sameBy] at hsame
        | some us =>
          simp only [sameBy, Bool.and_eq_true] at hsame ⊢
          exact ⟨hsame.1, sameList_mono (fun t ht u => ih ts rfl t ht) hsame.2⟩
    | _ => cases args <;> simp [sameBy] at hsame

theorem alike_of_beq (h : (t == u) = true) : Alike t u :=
  sameBy_mono (fun _ _ hvw => LiteralValue.alike_iff.mpr (Or.inr hvw)) h

/-- Alike types have one shape, and alike components in the same places. -/
inductive AlikeShape : Ty → Ty → Prop
  | unknown : AlikeShape unknown unknown
  | never : AlikeShape never never
  | literal {v w : LiteralValue} {b c : Ty} : v.alike w = true → Alike b c →
      AlikeShape (literal v b) (literal w c)
  | union {ts us : List Ty} : List.Forall₂ Alike ts us → AlikeShape (union ts) (union us)
  | func {ps qs : List (String × Ty)} {r q : Ty} :
      List.Forall₂ (fun p q => p.1 = q.1 ∧ Alike p.2 q.2) ps qs → Alike r q →
      AlikeShape (func ps r) (func qs q)
  | bare {id : DefId} {name : String} :
      AlikeShape (nominal id name none) (nominal id name none)
  | bound {id : DefId} {name : String} {ts us : List Ty} : List.Forall₂ Alike ts us →
      AlikeShape (nominal id name (some ts)) (nominal id name (some us))
  | param {p : TypeParam} : AlikeShape (param p) (param p)

theorem Alike.shape (h : Alike t u) : AlikeShape t u := by
  unfold Alike sameBy at h
  split at h
  · exact .unknown
  · exact .never
  · rw [Bool.and_eq_true] at h
    exact .literal h.1 h.2
  · exact .union (sameList_iff_forall₂.mp h)
  · rw [Bool.and_eq_true] at h
    exact .func (sameParams_iff_forall₂.mp h.1) h.2
  · obtain ⟨rfl, rfl⟩ : _ ∧ _ := by simpa using h
    exact .bare
  · obtain ⟨⟨rfl, rfl⟩, hts⟩ : (_ ∧ _) ∧ _ := by simpa using h
    exact .bound (sameList_iff_forall₂.mp hts)
  · obtain rfl : _ = _ := by simpa using h
    exact .param
  · simp at h

theorem AlikeShape.alike (h : AlikeShape t u) : Alike t u := by
  unfold Alike
  cases h with
  | literal hv hb =>
    rw [sameBy, hv]
    exact hb
  | union hts =>
    rw [sameBy, sameList_iff_forall₂]
    exact hts
  | func hps hr =>
    rw [sameBy, Bool.and_eq_true, sameParams_iff_forall₂]
    exact ⟨hps, hr⟩
  | bound hts =>
    rw [sameBy, Bool.and_eq_true, sameList_iff_forall₂]
    exact ⟨by simp, hts⟩
  | _ => simp [sameBy]

theorem forall_mem_congr {α β : Type} {R : α → β → Prop} {P : α → Prop} {Q : β → Prop} {xs : List α}
    {ys : List β} (h : List.Forall₂ R xs ys) (hPQ : ∀ x ∈ xs, ∀ y, R x y → (P x ↔ Q y)) :
    (∀ x ∈ xs, P x) ↔ ∀ y ∈ ys, Q y := by
  induction h with
  | nil => simp
  | @cons x y xs ys hxy _ ih =>
    have hrest := ih fun z hz => hPQ z (by simp [hz])
    simp only [List.forall_mem_cons, hPQ x (by simp) y hxy, hrest]

theorem exists_of_forall₂ {α β : Type} {R : α → β → Prop} {xs : List α} {ys : List β}
    (h : List.Forall₂ R xs ys) {x : α} (hx : x ∈ xs) : ∃ y ∈ ys, R x y := by
  induction h with
  | nil => cases hx
  | @cons _ y _ ys hxy _ ih =>
    rcases List.mem_cons.mp hx with rfl | hx
    · exact ⟨y, by simp, hxy⟩
    · obtain ⟨z, hz, hxz⟩ := ih hx
      exact ⟨z, by simp [hz], hxz⟩

theorem Alike.components (h : Alike t u) : List.Forall₂ Alike t.components u.components := by
  cases h.shape with
  | literal _ hb => exact .cons hb .nil
  | union hts => exact hts
  | func hps hr =>
    refine .cons hr ?_
    rw [List.forall₂_map_left_iff, List.forall₂_map_right_iff]
    exact hps.imp fun _ _ h => h.2
  | bound hts => exact hts
  | _ => exact .nil

theorem Alike.forall_parts_iff {P : Ty → Prop} (hP : ∀ t u, Alike t u → (P t ↔ P u))
    (h : Alike t u) : (∀ x ∈ t.parts, P x) ↔ ∀ x ∈ u.parts, P x := by
  induction t using induct_components generalizing u with
  | step t ih =>
    rw [Ty.forall_parts_iff, Ty.forall_parts_iff (t := u), hP t u h]
    refine and_congr_right fun _ => ?_
    exact forall_mem_congr h.components fun c hc d hcd => ih c hc hcd

theorem Alike.symm (h : Alike t u) : Alike u t := by
  induction t generalizing u with
  | unknown | never | param =>
    cases h.shape
    exact .refl _
  | literal v b ih =>
    cases h.shape with
    | literal hv hb => exact (AlikeShape.literal (LiteralValue.alike_symm hv) (ih hb)).alike
  | union ts ih =>
    cases h.shape with
    | union hts =>
      have hboth := (List.forall₂_and_left _ _).mpr ⟨fun t ht u => ih t ht (u := u), hts⟩
      exact (AlikeShape.union (hboth.imp fun _ u h => h.1 u h.2).flip).alike
  | func ps r ihp ihr =>
    cases h.shape with
    | func hps hr =>
      have hboth := (List.forall₂_and_left _ _).mpr ⟨fun p hp u => ihp p hp (u := u), hps⟩
      refine (AlikeShape.func (hboth.imp fun p q h => ?_).flip (ihr hr)).alike
      exact ⟨h.2.1.symm, h.1 q.2 h.2.2⟩
  | nominal id name args ih =>
    cases h.shape with
    | bare => exact .refl _
    | bound hts =>
      have hboth := (List.forall₂_and_left _ _).mpr ⟨fun t ht u => ih _ rfl t ht (u := u), hts⟩
      exact (AlikeShape.bound (hboth.imp fun _ u h => h.1 u h.2).flip).alike

theorem forall₂_trans {α : Type} {R : α → α → Prop} {xs ys zs : List α}
    (htrans : ∀ x ∈ xs, ∀ y z, R x y → R y z → R x z) (hxy : List.Forall₂ R xs ys)
    (hyz : List.Forall₂ R ys zs) : List.Forall₂ R xs zs := by
  induction hxy generalizing zs with
  | nil =>
    cases hyz
    exact .nil
  | @cons x y xs ys hxy _ ih =>
    cases hyz with
    | @cons _ z _ zs hyz hrest =>
      exact .cons (htrans x (by simp) y z hxy hyz)
        (ih (fun a ha => htrans a (by simp [ha])) hrest)

theorem Alike.trans {w : Ty} (htu : Alike t u) (huw : Alike u w) : Alike t w := by
  induction t generalizing u w with
  | unknown | never | param =>
    cases htu.shape
    exact huw
  | literal v b ih =>
    cases htu.shape with
    | literal hv hb =>
      cases huw.shape with
      | literal hv' hb' => exact (AlikeShape.literal (LiteralValue.alike_trans hv hv') (ih hb hb')).alike
  | union ts ih =>
    cases htu.shape with
    | union hts =>
      cases huw.shape with
      | union hus => exact (AlikeShape.union (forall₂_trans (fun t ht _ _ => ih t ht) hts hus)).alike
  | func ps r ihp ihr =>
    cases htu.shape with
    | func hps hr =>
      cases huw.shape with
      | func hqs hq =>
        refine (AlikeShape.func (forall₂_trans (fun p hp _ _ h h' => ?_) hps hqs) (ihr hr hq)).alike
        exact ⟨h.1.trans h'.1, ihp p hp h.2 h'.2⟩
  | nominal id name args ih =>
    cases htu.shape with
    | bare => exact huw
    | bound hts =>
      cases huw.shape with
      | bound hus => exact (AlikeShape.bound (forall₂_trans (fun t ht _ _ => ih _ rfl t ht) hts hus)).alike

end Ty

end ScriptTyping
